import EditableMarkup.Tree.Locate
import Mathlib.Data.List.Nodup

/-!
# Nodes and their paths

The nodes that a tree lists are those at the ends of its paths.  Identifiers
are distinct when no node that is listed repeats one, which is to say that
different paths lead to different identifiers.  The search for an identifier
finds a path exactly where a node carries it, and with distinct identifiers
it finds the one path there is.
-/

namespace EditableMarkup

namespace Content

/-- A child with the node in it changed. -/
def map {α β : Type} (f : α → β) : Content α → Content β
  | .text value => .text value
  | .expression source => .expression source
  | .node below => .node (f below)

/-- The nodes in a child. -/
def nodes : Content Node → List Node
  | .node below => below.nodes
  | _ => []

/-- The identifiers in a child. -/
def ids (child : Content Node) : List String :=
  child.nodes.map Node.id

end Content

namespace Node

/-! ## Induction on the children of a node -/

/-- What holds of a node as soon as it holds of the nodes among its children holds of every node. -/
@[elab_as_elim]
theorem induction {motive : Node → Prop}
    (step : ∀ tree : Node, (∀ child, .node child ∈ tree.children → motive child) → motive tree) :
    (tree : Node) → motive tree
  | ⟨tag, attributes, children, id⟩ =>
    step ⟨tag, attributes, children, id⟩ fun child _ => induction step child
termination_by tree => sizeOf tree
decreasing_by
  rename_i hchild
  have hsize := List.sizeOf_lt_of_mem hchild
  simp only [Content.node.sizeOf_spec] at hsize
  simp only [Node.mk.sizeOf_spec]
  omega

/-! ## Listed nodes -/

theorem nodesIn_eq_flatMap (children : List (Content Node)) :
    nodesIn children = children.flatMap Content.nodes := by
  induction children with
  | nil => rfl
  | cons child rest ih => cases child <;> simp [nodesIn, Content.nodes, ih]

theorem nodes_eq (tree : Node) : tree.nodes = tree :: tree.children.flatMap Content.nodes := by
  obtain ⟨tag, attributes, children, id⟩ := tree
  rw [nodes, nodesIn_eq_flatMap]

theorem mem_nodes_self (tree : Node) : tree ∈ tree.nodes := by
  rw [nodes_eq]
  exact List.mem_cons_self ..

/-- A listed node is the tree itself or listed below one of its children. -/
theorem mem_nodes_iff {tree node : Node} :
    node ∈ tree.nodes ↔ node = tree ∨ ∃ child, .node child ∈ tree.children ∧ node ∈ child.nodes := by
  rw [nodes_eq, List.mem_cons, List.mem_flatMap]
  refine or_congr_right ⟨?_, fun ⟨child, hchild, hnode⟩ => ⟨.node child, hchild, hnode⟩⟩
  rintro ⟨content, hcontent, hnode⟩
  cases content with
  | text _ => cases hnode
  | expression _ => cases hnode
  | node child => exact ⟨child, hcontent, hnode⟩

/-! ## Following a path -/

@[simp] theorem at?_nil (tree : Node) : tree.at? [] = some tree := rfl

theorem at?_cons_eq_some_iff {tree node : Node} {position : Nat} {path : List Nat} :
    tree.at? (position :: path) = some node ↔
      ∃ child, tree.children[position]? = some (.node child) ∧ child.at? path = some node := by
  rw [at?]
  constructor
  · intro h
    split at h
    · next child hchild => exact ⟨child, hchild, h⟩
    · cases h
  · rintro ⟨child, hchild, h⟩
    rw [hchild]
    exact h

/-- A path is followed one part after the other. -/
theorem at?_append (tree : Node) (path rest : List Nat) :
    tree.at? (path ++ rest) = (tree.at? path).bind fun node => node.at? rest := by
  induction path generalizing tree with
  | nil => rfl
  | cons position path ih =>
      rw [List.cons_append, at?, at?]
      split
      · exact ih _
      · rfl

/-- The listed nodes are those to which a path leads. -/
theorem mem_nodes_iff_exists_at? {tree node : Node} :
    node ∈ tree.nodes ↔ ∃ path, tree.at? path = some node := by
  constructor
  · induction tree using Node.induction with
    | step tree ih =>
        intro h
        rcases mem_nodes_iff.mp h with rfl | ⟨child, hchild, hnode⟩
        · exact ⟨[], rfl⟩
        · obtain ⟨path, hpath⟩ := ih child hchild hnode
          obtain ⟨position, hposition⟩ := List.mem_iff_getElem?.mp hchild
          exact ⟨position :: path, at?_cons_eq_some_iff.mpr ⟨child, hposition, hpath⟩⟩
  · rintro ⟨path, hpath⟩
    induction path generalizing tree with
    | nil =>
        cases hpath
        exact mem_nodes_self _
    | cons position path ih =>
        obtain ⟨child, hchild, hnode⟩ := at?_cons_eq_some_iff.mp hpath
        exact mem_nodes_iff.mpr (.inr ⟨child, List.mem_of_getElem? hchild, ih hnode⟩)

/-! ## Distinct identifiers -/

/-- The identifiers of the nodes of a tree, in the order of the nodes. -/
def ids (tree : Node) : List String :=
  tree.nodes.map Node.id

theorem mem_ids_iff {tree : Node} {id : String} :
    id ∈ tree.ids ↔ ∃ path node, tree.at? path = some node ∧ node.id = id := by
  simp only [ids, List.mem_map, mem_nodes_iff_exists_at?]
  constructor
  · rintro ⟨node, ⟨path, hpath⟩, rfl⟩
    exact ⟨path, node, hpath, rfl⟩
  · rintro ⟨path, node, hpath, rfl⟩
    exact ⟨node, ⟨path, hpath⟩, rfl⟩

theorem ids_eq (tree : Node) :
    tree.ids = tree.id :: tree.children.flatMap Content.ids := by
  rw [ids, nodes_eq, List.map_cons, List.map_flatMap]
  rfl

/-- Different paths of a tree lead to different identifiers. -/
def Tells (tree : Node) : Prop :=
  ∀ ⦃path other : List Nat⦄ ⦃a b : Node⦄, tree.at? path = some a → tree.at? other = some b →
    a.id = b.id → path = other

/-- Below a position the identifiers are told apart, and at two positions they differ. -/
theorem tells_iff {tree : Node} :
    tree.Tells ↔
      (∀ child, .node child ∈ tree.children → child.Tells ∧ tree.id ∉ child.ids) ∧
        ∀ (i j : Nat) (a b : Node), i < j → tree.children[i]? = some (.node a) →
          tree.children[j]? = some (.node b) → a.ids.Disjoint b.ids := by
  constructor
  · intro htells
    refine ⟨fun child hchild => ⟨fun path other a b ha hb hid => ?_, fun hid => ?_⟩, ?_⟩
    · obtain ⟨i, hi⟩ := List.mem_iff_getElem?.mp hchild
      have hpaths := htells (at?_cons_eq_some_iff.mpr ⟨child, hi, ha⟩)
        (at?_cons_eq_some_iff.mpr ⟨child, hi, hb⟩) hid
      exact (List.cons.inj hpaths).2
    · obtain ⟨i, hi⟩ := List.mem_iff_getElem?.mp hchild
      obtain ⟨path, node, hnode, hid⟩ := mem_ids_iff.mp hid
      have hpaths := htells (at?_nil tree) (at?_cons_eq_some_iff.mpr ⟨child, hi, hnode⟩) hid.symm
      cases hpaths
    · intro i j a b hij hi hj id hida hidb
      obtain ⟨path, node, hnode, rfl⟩ := mem_ids_iff.mp hida
      obtain ⟨other, node', hnode', hid⟩ := mem_ids_iff.mp hidb
      have hpaths := htells (at?_cons_eq_some_iff.mpr ⟨a, hi, hnode⟩)
        (at?_cons_eq_some_iff.mpr ⟨b, hj, hnode'⟩) hid.symm
      exact Nat.ne_of_lt hij (List.cons.inj hpaths).1
  · rintro ⟨hbelow, hbeside⟩ path other a b ha hb hid
    have hroot {i : Nat} {rest : List Nat} {node : Node} (hnode : tree.at? (i :: rest) = some node) :
        tree.id ≠ node.id := by
      obtain ⟨child, hchild, hnode⟩ := at?_cons_eq_some_iff.mp hnode
      intro heq
      exact (hbelow child (List.mem_of_getElem? hchild)).2 (mem_ids_iff.mpr ⟨rest, node, hnode, heq.symm⟩)
    match path, other with
    | [], [] => rfl
    | [], _ :: _ =>
      cases ha
      exact absurd hid (hroot hb)
    | _ :: _, [] =>
      cases hb
      exact absurd hid.symm (hroot ha)
    | i :: path, j :: other =>
      obtain ⟨child, hchild, ha⟩ := at?_cons_eq_some_iff.mp ha
      obtain ⟨child', hchild', hb⟩ := at?_cons_eq_some_iff.mp hb
      have hida := mem_ids_iff.mpr ⟨path, a, ha, rfl⟩
      have hidb := mem_ids_iff.mpr ⟨other, b, hb, rfl⟩
      rcases Nat.lt_trichotomy i j with hij | rfl | hji
      · exact (hbeside i j child child' hij hchild hchild' hida (hid ▸ hidb)).elim
      · rw [hchild] at hchild'
        cases hchild'
        rw [(hbelow child (List.mem_of_getElem? hchild)).1 ha hb hid]
      · exact (hbeside j i child' child hji hchild' hchild hidb (hid ▸ hida)).elim

/-- No identifier is repeated exactly if each tells the path of its node. -/
theorem nodup_ids_iff {tree : Node} : tree.ids.Nodup ↔ tree.Tells := by
  induction tree using Node.induction with
  | step tree ih =>
      rw [tells_iff, ids_eq, List.nodup_cons, List.nodup_flatMap, List.pairwise_iff_getElem,
        List.mem_flatMap]
      constructor
      · rintro ⟨hroot, hbelow, hbeside⟩
        refine ⟨fun child hchild => ⟨(ih child hchild).mp (hbelow _ hchild), fun hid => ?_⟩, ?_⟩
        · exact hroot ⟨.node child, hchild, hid⟩
        · intro i j a b hij hi hj
          obtain ⟨hi', hi⟩ := List.getElem?_eq_some_iff.mp hi
          obtain ⟨hj', hj⟩ := List.getElem?_eq_some_iff.mp hj
          have hdisjoint := hbeside i j hi' hj' hij
          change List.Disjoint (Content.ids _) (Content.ids _) at hdisjoint
          rwa [hi, hj] at hdisjoint
      · rintro ⟨hbelow, hbeside⟩
        refine ⟨?_, ?_, ?_⟩
        · rintro ⟨content, hcontent, hid⟩
          cases content with
          | text _ => cases hid
          | expression _ => cases hid
          | node child => exact (hbelow child hcontent).2 hid
        · intro content hcontent
          cases content with
          | text _ => exact List.nodup_nil
          | expression _ => exact List.nodup_nil
          | node child => exact (ih child hcontent).mpr (hbelow child hcontent).1
        · intro i j hi hj hij
          have hbetween := hbeside i j
          rw [List.getElem?_eq_getElem hi, List.getElem?_eq_getElem hj] at hbetween
          cases hfirst : tree.children[i] with
          | text _ => exact List.disjoint_nil_left _
          | expression _ => exact List.disjoint_nil_left _
          | node a =>
              cases hsecond : tree.children[j] with
              | text _ => exact List.disjoint_nil_right _
              | expression _ => exact List.disjoint_nil_right _
              | node b => exact hbetween a b hij (congrArg some hfirst) (congrArg some hsecond)

/-! ## Searching for an identifier -/

theorem path?_eq (id : String) (tree : Node) :
    path? id tree = if tree.id = id then some [] else pathIn? id 0 tree.children := by
  obtain ⟨tag, attributes, children, own⟩ := tree
  rw [path?]

theorem pathIn?_eq_none_iff {id : String} {start : Nat} {children : List (Content Node)} :
    pathIn? id start children = none ↔ ∀ child, .node child ∈ children → path? id child = none := by
  induction children generalizing start with
  | nil => simp [pathIn?]
  | cons content rest ih =>
      cases content with
      | text _ => simp [pathIn?, ih]
      | expression _ => simp [pathIn?, ih]
      | node child => cases hchild : path? id child <;> simp [pathIn?, hchild, ih]

/-- The path that is found among children leads through the first child in which one is found. -/
theorem pathIn?_eq_some {id : String} {start : Nat} {children : List (Content Node)}
    {path : List Nat} (h : pathIn? id start children = some path) :
    ∃ position child rest, path = (start + position) :: rest ∧
      children[position]? = some (.node child) ∧ path? id child = some rest ∧
      ∀ other, .node other ∈ children.take position → path? id other = none := by
  induction children generalizing start with
  | nil => cases h
  | cons content children ih =>
      have later (hlater : pathIn? id (start + 1) children = some path)
          (hfirst : ∀ other, content = .node other → path? id other = none) :
          ∃ position child rest, path = (start + position) :: rest ∧
            (content :: children)[position]? = some (.node child) ∧ path? id child = some rest ∧
            ∀ other, .node other ∈ (content :: children).take position → path? id other = none := by
        obtain ⟨position, child, rest, rfl, hchild, hrest, hnone⟩ := ih hlater
        refine ⟨position + 1, child, rest, by rw [Nat.add_assoc, Nat.add_comm 1], hchild, hrest, ?_⟩
        intro other hother
        rcases List.mem_cons.mp hother with heq | hother
        · exact hfirst other heq.symm
        · exact hnone other hother
      cases content with
      | text _ => exact later h nofun
      | expression _ => exact later h nofun
      | node child =>
          rw [pathIn?] at h
          cases hchild : path? id child with
          | none =>
              rw [hchild] at h
              refine later h fun other heq => ?_
              cases heq
              exact hchild
          | some rest =>
              rw [hchild] at h
              cases h
              exact ⟨0, child, rest, rfl, rfl, hchild, nofun⟩

/-- A path that is found in a child is found among children, if none is found in front of it. -/
theorem pathIn?_of_getElem? {id : String} {children : List (Content Node)} {position : Nat}
    {child : Node} (hchild : children[position]? = some (.node child)) {rest : List Nat}
    (hrest : path? id child = some rest)
    (hnone : ∀ other, .node other ∈ children.take position → path? id other = none) (start : Nat) :
    pathIn? id start children = some ((start + position) :: rest) := by
  induction children generalizing position start with
  | nil => cases hchild
  | cons content children ih =>
      cases position with
      | zero =>
          cases hchild
          rw [pathIn?, hrest]
          rfl
      | succ position =>
          have hlater := ih hchild (fun other hother => hnone other (List.mem_cons_of_mem _ hother))
            (start + 1)
          rw [Nat.add_assoc, Nat.add_comm 1] at hlater
          cases content with
          | text _ | expression _ => exact hlater
          | node other =>
              rw [pathIn?, hnone other (List.mem_cons_self ..)]
              exact hlater

/-- No path is found exactly if no node carries the identifier. -/
theorem path?_eq_none_iff {id : String} {tree : Node} : path? id tree = none ↔ id ∉ tree.ids := by
  induction tree using Node.induction with
  | step tree ih =>
      rw [path?_eq, ids_eq, List.mem_cons, List.mem_flatMap]
      by_cases hid : tree.id = id
      · simp [hid]
      · rw [if_neg hid, pathIn?_eq_none_iff]
        constructor
        · rintro hnone (heq | ⟨content, hcontent, hmem⟩)
          · exact hid heq.symm
          · cases content with
            | text _ => cases hmem
            | expression _ => cases hmem
            | node child => exact (ih child hcontent).mp (hnone child hcontent) hmem
        · intro habsent child hchild
          exact (ih child hchild).mpr fun hmem => habsent (.inr ⟨.node child, hchild, hmem⟩)

/-- The path that is found leads to a node with the identifier. -/
theorem exists_at?_of_path? {id : String} {tree : Node} {path : List Nat}
    (h : path? id tree = some path) : ∃ node, tree.at? path = some node ∧ node.id = id := by
  induction tree using Node.induction generalizing path with
  | step tree ih =>
      rw [path?_eq] at h
      split at h
      · next hid =>
          cases h
          exact ⟨tree, rfl, hid⟩
      · obtain ⟨position, child, rest, rfl, hchild, hrest, _⟩ := pathIn?_eq_some h
        obtain ⟨node, hnode, hid⟩ := ih child (List.mem_of_getElem? hchild) hrest
        refine ⟨node, at?_cons_eq_some_iff.mpr ⟨child, ?_, hnode⟩, hid⟩
        rw [Nat.zero_add]
        exact hchild

/-- The node that is found stands at the end of the path that is found. -/
theorem find?_eq (id : String) (tree : Node) : tree.find? id = (path? id tree).bind tree.at? := by
  induction tree using Node.induction with
  | step tree ih =>
      rw [find?, nodes_eq, path?_eq]
      by_cases hid : tree.id = id
      · have hfirst : (tree.id == id) = true := beq_iff_eq.mpr hid
        rw [List.find?_cons, hfirst, if_pos hid]
        rfl
      · have hfirst : (tree.id == id) = false := beq_eq_false_iff_ne.mpr hid
        rw [List.find?_cons, hfirst, if_neg hid, List.find?_flatMap]
        cases hpath : pathIn? id 0 tree.children with
        | none =>
            refine List.findSome?_eq_none_iff.mpr fun content hcontent => ?_
            cases content with
            | text _ | expression _ => rfl
            | node child =>
                have hbelow := ih child hcontent
                rw [pathIn?_eq_none_iff.mp hpath child hcontent] at hbelow
                exact hbelow
        | some path =>
            obtain ⟨position, child, rest, rfl, hchild, hrest, hnone⟩ := pathIn?_eq_some hpath
            obtain ⟨node, hnode, _⟩ := exists_at?_of_path? hrest
            have hbelow := ih child (List.mem_of_getElem? hchild)
            rw [hrest, Option.bind_some, hnode] at hbelow
            have hwhole : tree.at? ((0 + position) :: rest) = some node :=
              at?_cons_eq_some_iff.mpr ⟨child, by rw [Nat.zero_add]; exact hchild, hnode⟩
            rw [Option.bind_some, hwhole, List.findSome?_eq_some_iff]
            obtain ⟨hposition, hget⟩ := List.getElem?_eq_some_iff.mp hchild
            refine ⟨tree.children.take position, .node child, tree.children.drop (position + 1), ?_,
              hbelow, fun content hcontent => ?_⟩
            · rw [← hget, ← List.drop_eq_getElem_cons hposition, List.take_append_drop]
            · cases content with
              | text _ | expression _ => rfl
              | node other =>
                  have hother := ih other (List.mem_of_mem_take hcontent)
                  rw [hnone other hcontent] at hother
                  exact hother

/-- With distinct identifiers, the path to a node is found by the node's identifier. -/
theorem Tells.path?_eq_some {tree node : Node} (htells : tree.Tells) {path : List Nat}
    (hnode : tree.at? path = some node) : path? node.id tree = some path := by
  cases hpath : path? node.id tree with
  | none => exact absurd (mem_ids_iff.mpr ⟨path, node, hnode, rfl⟩) (path?_eq_none_iff.mp hpath)
  | some found =>
      obtain ⟨other, hother, hid⟩ := exists_at?_of_path? hpath
      rw [htells hother hnode hid]

end Node

end EditableMarkup
