import EditableMarkup.Proofs.Tree.Navigate

/-!
# The order of the search

The nodes of a tree are listed in the order of their paths: a node stands in
front of all nodes whose paths are greater in the lexicographic order, and no
path is listed twice.  So the first node with an identifier is the one at the
least path, and this path is what the search among the positions finds, behind
whatever was passed on the way to the tree.
-/

namespace EditableMarkup.Node

/-! ## The paths of the listed nodes -/

mutual

/-- The paths to all nodes of a tree, in the order in which the nodes are listed. -/
def places : Node → List (List Nat)
  | ⟨_, _, children, _⟩ => [] :: placesIn 0 children

/-- The paths to all nodes among children, of which the first has a given position. -/
def placesIn (position : Nat) : List (Content Node) → List (List Nat)
  | [] => []
  | .node node :: rest => (places node).map (position :: ·) ++ placesIn (position + 1) rest
  | _ :: rest => placesIn (position + 1) rest

end

theorem places_eq (tree : Node) : tree.places = [] :: placesIn 0 tree.children := by
  cases tree
  rw [places]

/-- A path among children leads through one of the nodes. -/
theorem mem_placesIn_iff {start : Nat} {children : List (Content Node)} {path : List Nat} :
    path ∈ placesIn start children ↔ ∃ position child rest, path = (start + position) :: rest ∧
      children[position]? = some (.node child) ∧ rest ∈ child.places := by
  induction children generalizing start with
  | nil => simp [placesIn]
  | cons content children ih =>
      have later : path ∈ placesIn (start + 1) children ↔ ∃ position child rest,
          path = (start + (position + 1)) :: rest ∧
            (content :: children)[position + 1]? = some (.node child) ∧ rest ∈ child.places := by
        simp only [ih, Nat.add_assoc, Nat.add_comm 1, List.getElem?_cons_succ]
      have hsplit (property : Nat → Prop) :
          (∃ position, property position) ↔ property 0 ∨ ∃ position, property (position + 1) := by
        constructor
        · rintro ⟨position, h⟩
          cases position with
          | zero => exact .inl h
          | succ position => exact .inr ⟨position, h⟩
        · rintro (h | ⟨position, h⟩)
          · exact ⟨0, h⟩
          · exact ⟨position + 1, h⟩
      rw [hsplit, ← later]
      cases content with
      | text _ | expression _ => simp [placesIn]
      | node child =>
          rw [placesIn, List.mem_append, List.mem_map]
          apply or_congr_left
          constructor
          · rintro ⟨rest, hrest, rfl⟩
            exact ⟨child, rest, rfl, rfl, hrest⟩
          · rintro ⟨other, rest, rfl, hother, hrest⟩
            cases hother
            exact ⟨rest, hrest, rfl⟩

/-- The listed paths are those that lead to a node. -/
theorem mem_places_iff {tree : Node} {path : List Nat} :
    path ∈ tree.places ↔ ∃ node, tree.at? path = some node := by
  induction tree using Node.induction generalizing path with
  | step tree ih =>
      rw [places_eq, List.mem_cons, mem_placesIn_iff]
      cases path with
      | nil => simp
      | cons position path =>
          simp only [at?_cons_eq_some_iff, List.cons_ne_nil, false_or, Nat.zero_add]
          constructor
          · rintro ⟨_, child, rest, heq, hchild, hrest⟩
            cases heq
            obtain ⟨node, hnode⟩ := (ih child (List.mem_of_getElem? hchild)).mp hrest
            exact ⟨node, child, hchild, hnode⟩
          · rintro ⟨node, child, hchild, hnode⟩
            exact ⟨position, child, path, rfl, hchild,
              (ih child (List.mem_of_getElem? hchild)).mpr ⟨node, hnode⟩⟩

/-- Behind one another stand the paths through one child and the paths through later ones. -/
theorem pairwise_placesIn {start : Nat} {children : List (Content Node)}
    (h : ∀ child, .node child ∈ children → child.places.Pairwise (List.Lex (· < ·))) :
    (placesIn start children).Pairwise (List.Lex (· < ·)) := by
  induction children generalizing start with
  | nil => exact List.Pairwise.nil
  | cons content children ih =>
      have hlater := @ih (start + 1) fun child hchild => h child (List.mem_cons_of_mem _ hchild)
      cases content with
      | text _ | expression _ => exact hlater
      | node child =>
          rw [placesIn, List.pairwise_append, List.pairwise_map]
          refine ⟨?_, hlater, ?_⟩
          · have hbelow := h child (List.mem_cons_self ..)
            exact hbelow.imp List.Lex.cons
          · intro path hpath other hother
            obtain ⟨rest, _, rfl⟩ := List.mem_map.mp hpath
            obtain ⟨position, _, rest', rfl, _, _⟩ := mem_placesIn_iff.mp hother
            exact List.Lex.rel (by omega)

/-- The paths are listed in ascending order, and hence each of them once. -/
theorem pairwise_places (tree : Node) : tree.places.Pairwise (List.Lex (· < ·)) := by
  induction tree using Node.induction with
  | step tree ih =>
      rw [places_eq, List.pairwise_cons]
      refine ⟨fun path hpath => ?_, pairwise_placesIn ih⟩
      obtain ⟨_, _, _, rfl, _, _⟩ := mem_placesIn_iff.mp hpath
      exact List.Lex.nil

/-- The paths among the last children lead to the nodes that these list. -/
theorem map_at?_placesIn {tree : Node}
    (ih : ∀ child, .node child ∈ tree.children → child.places.map child.at? = child.nodes.map some)
    {front rest : List (Content Node)} (hchildren : tree.children = front ++ rest) :
    (placesIn front.length rest).map tree.at? = (rest.flatMap Content.nodes).map some := by
  induction rest generalizing front with
  | nil => rfl
  | cons content rest ihrest =>
      have hnext : tree.children = (front ++ [content]) ++ rest := by simp [hchildren]
      have hlater := ihrest hnext
      rw [List.length_append, List.length_singleton] at hlater
      cases content with
      | text _ | expression _ => exact hlater
      | node child =>
          have hchild : tree.children[front.length]? = some (.node child) := by simp [hchildren]
          have hbelow : tree.at? ∘ (front.length :: ·) = child.at? := by
            funext path
            rw [Function.comp_apply, at?, hchild]
          rw [placesIn, List.map_append, List.map_map, hbelow, hlater,
            ih child (List.mem_of_getElem? hchild), List.flatMap_cons, List.map_append]
          rfl

/-- The listed paths lead to the listed nodes, in the same order. -/
theorem map_at?_places (tree : Node) : tree.places.map tree.at? = tree.nodes.map some := by
  induction tree using Node.induction with
  | step tree ih =>
      rw [places_eq, nodes_eq, List.map_cons, List.map_cons, at?_nil]
      exact congrArg _ (map_at?_placesIn ih (List.nil_append _).symm)

/-- The path at an index leads to the node at the same index. -/
theorem getElem?_nodes {tree : Node} {index : Nat} {path : List Nat}
    (hpath : tree.places[index]? = some path) : tree.nodes[index]? = tree.at? path := by
  have hindex := congrArg (·[index]?) (map_at?_places tree)
  simp only [List.getElem?_map, hpath, Option.map_some] at hindex
  cases hnode : tree.nodes[index]? with
  | none =>
      rw [hnode] at hindex
      cases hindex
  | some node =>
      rw [hnode] at hindex
      exact (Option.some.inj hindex).symm

/-- A node that is listed in front of a path has a lesser path. -/
theorem exists_lt_of_mem_take {tree node : Node} {index : Nat} {path : List Nat}
    (hpath : tree.places[index]? = some path) (hnode : node ∈ tree.nodes.take index) :
    ∃ earlier, List.Lex (· < ·) earlier path ∧ tree.at? earlier = some node := by
  obtain ⟨position, hposition⟩ := List.mem_iff_getElem?.mp hnode
  rw [List.getElem?_take] at hposition
  split at hposition
  · next hlt =>
      obtain ⟨hindex, hget⟩ := List.getElem?_eq_some_iff.mp hpath
      have hearlier : tree.places[position]? = some tree.places[position] :=
        List.getElem?_eq_getElem (Nat.lt_trans hlt hindex)
      refine ⟨tree.places[position], ?_, ?_⟩
      · rw [← hget]
        exact List.pairwise_iff_getElem.mp (pairwise_places tree) _ _ _ _ hlt
      · rw [← getElem?_nodes hearlier, hposition]
  · cases hposition

/-! ## The least path -/

/-- The path that is found is the least one that leads to a node with the identifier. -/
theorem eq_or_lex_of_path? {id : String} {tree : Node} {path : List Nat} (h : path? id tree = some path)
    {other : List Nat} {node : Node} (hother : tree.at? other = some node) (hid : node.id = id) :
    path = other ∨ List.Lex (· < ·) path other := by
  induction tree using Node.induction generalizing path other with
  | step tree ih =>
      rw [path?_eq] at h
      split at h
      · cases h
        cases other with
        | nil => exact .inl rfl
        | cons position' other => exact .inr .nil
      · next hroot =>
          obtain ⟨position, child, rest, rfl, hchild, hrest, hnone⟩ := pathIn?_eq_some h
          cases other with
          | nil =>
              cases hother
              exact absurd hid hroot
          | cons position' other =>
              obtain ⟨child', hchild', hnode⟩ := at?_cons_eq_some_iff.mp hother
              rw [Nat.zero_add]
              rcases Nat.lt_trichotomy position position' with hlt | rfl | hlt
              · exact .inr (.rel hlt)
              · rw [hchild] at hchild'
                cases hchild'
                exact (ih child (List.mem_of_getElem? hchild) hrest hnode).imp
                  (congrArg _) List.Lex.cons
              · have hfront : .node child' ∈ tree.children.take position := by
                  apply List.mem_of_getElem? (i := position')
                  rw [List.getElem?_take_of_lt hlt, hchild']
                have habsent := path?_eq_none_iff.mp (hnone child' hfront)
                exact absurd (mem_ids_iff.mpr ⟨other, node, hnode, hid⟩) habsent

/-! ## Paths behind others -/

theorem pathBehind?_eq (passed : List Nat) (id : String) (tree : Node) :
    pathBehind? passed id tree =
      if tree.id = id then some passed else pathBehindIn? passed id 0 tree.children := by
  cases tree
  rw [pathBehind?]

theorem pathBehindIn?_eq_map {passed : List Nat} {id : String} {children : List (Content Node)}
    (ih : ∀ child, .node child ∈ children → ∀ passed,
      pathBehind? passed id child = (path? id child).map (passed ++ ·)) (position : Nat) :
    pathBehindIn? passed id position children =
      (pathIn? id position children).map (passed ++ ·) := by
  induction children generalizing position with
  | nil => rfl
  | cons content children ihrest =>
      have hlater := ihrest (fun child hchild => ih child (List.mem_cons_of_mem _ hchild))
        (position + 1)
      cases content with
      | text _ | expression _ => exact hlater
      | node child =>
          rw [pathBehindIn?, pathIn?, ih child (List.mem_cons_self ..), hlater]
          cases path? id child with
          | none => rfl
          | some path => simp

/-- What was passed stands in front of the path that is found. -/
theorem pathBehind?_eq_map (passed : List Nat) (id : String) (tree : Node) :
    pathBehind? passed id tree = (path? id tree).map (passed ++ ·) := by
  induction tree using Node.induction generalizing passed with
  | step tree ih =>
      rw [pathBehind?_eq, path?_eq]
      split
      · simp
      · exact pathBehindIn?_eq_map (fun child hchild passed => ih child hchild passed) 0

/-! ## One search -/

theorem find?_eq_none_iff {id : String} {tree : Node} :
    tree.find? id = none ↔ ∀ node ∈ tree.nodes, node.id ≠ id := by
  simp [find?]

theorem path?_eq_none_iff_forall {id : String} {tree : Node} :
    path? id tree = none ↔ ∀ node ∈ tree.nodes, node.id ≠ id := by
  rw [path?_eq_none_iff]
  simp [ids]

/-- The listing, the search for a node and the search for a path go through the same nodes in the
same order. Every node is listed once, in the order of the paths. Both searches fail exactly if no
listed node has the identifier; otherwise they agree on the first listed node that has it, whose
path is the least of all that lead to such nodes. -/
theorem locators_agree (tree : Node) (id : String) (passed : List Nat) :
    tree.places.map tree.at? = tree.nodes.map some ∧
      tree.places.Pairwise (List.Lex (· < ·)) ∧
      (∀ path, path ∈ tree.places ↔ ∃ node, tree.at? path = some node) ∧
      (tree.find? id = none ↔ ∀ node ∈ tree.nodes, node.id ≠ id) ∧
      (tree.pathBehind? passed id = none ↔ ∀ node ∈ tree.nodes, node.id ≠ id) ∧
      ∀ node, tree.find? id = some node → ∃ index path,
        tree.pathBehind? passed id = some (passed ++ path) ∧ tree.at? path = some node ∧
          tree.places[index]? = some path ∧ tree.nodes[index]? = some node ∧ node.id = id ∧
          (∀ earlier ∈ tree.nodes.take index, earlier.id ≠ id) ∧
          ∀ other found, tree.at? other = some found → found.id = id →
            path = other ∨ List.Lex (· < ·) path other := by
  refine ⟨map_at?_places tree, pairwise_places tree, fun _ => mem_places_iff, find?_eq_none_iff,
    ?_, fun node hfound => ?_⟩
  · rw [pathBehind?_eq_map, Option.map_eq_none_iff]
    exact path?_eq_none_iff_forall
  · rw [find?_eq] at hfound
    obtain ⟨path, hpath, hnode⟩ := Option.bind_eq_some_iff.mp hfound
    obtain ⟨found, hfound, hid⟩ := exists_at?_of_path? hpath
    obtain rfl : found = node := Option.some.inj (hfound.symm.trans hnode)
    obtain ⟨index, hindex⟩ := List.mem_iff_getElem?.mp (mem_places_iff.mpr ⟨found, hnode⟩)
    refine ⟨index, path, ?_, hnode, hindex, ?_, hid, ?_, ?_⟩
    · rw [pathBehind?_eq_map, hpath, Option.map_some]
    · rw [getElem?_nodes hindex, hnode]
    · intro earlier hearlier hsame
      obtain ⟨place, hlt, hplace⟩ := exists_lt_of_mem_take hindex hearlier
      rcases eq_or_lex_of_path? hpath hplace hsame with rfl | hgt
      · exact List.lex_irrefl Nat.lt_irrefl _ hlt
      · exact List.lex_asymm (fun h => Nat.lt_asymm h) hlt hgt
    · intro other node hother hsame
      exact eq_or_lex_of_path? hpath hother hsame

end EditableMarkup.Node
