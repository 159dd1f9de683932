import EditableMarkup.Proofs.Tree.Built
import EditableMarkup.Tree.Reconcile

/-!
# What reconciling relabels

Reconciling changes identifiers only.  A node takes over the earlier identifier
at its path if on the whole way down to it both trees have nodes with the same
tags, and keeps its own otherwise.
-/

namespace EditableMarkup

namespace Node

/-! ## Trees without identifiers -/

mutual

/-- A tree with all identifiers blanked. -/
def unlabelled : Node → Node
  | ⟨tag, attributes, children, _⟩ => ⟨tag, attributes, unlabelledAll children, ""⟩

/-- Children with all identifiers blanked. -/
def unlabelledAll : List (Content Node) → List (Content Node)
  | [] => []
  | .text value :: rest => .text value :: unlabelledAll rest
  | .expression source :: rest => .expression source :: unlabelledAll rest
  | .node child :: rest => .node child.unlabelled :: unlabelledAll rest

end

theorem unlabelledAll_eq_map (children : List (Content Node)) :
    unlabelledAll children = children.map (Content.map unlabelled) := by
  induction children with
  | nil => rfl
  | cons content rest ih => cases content <;> simp [unlabelledAll, Content.map, ih]

theorem unlabelled_eq (tree : Node) :
    tree.unlabelled =
      { tree with children := tree.children.map (Content.map unlabelled), id := "" } := by
  obtain ⟨tag, attributes, children, id⟩ := tree
  rw [unlabelled, unlabelledAll_eq_map]

theorem at?_unlabelled (tree : Node) (path : List Nat) :
    tree.unlabelled.at? path = (tree.at? path).map unlabelled := by
  induction path generalizing tree with
  | nil => rfl
  | cons position path ih =>
      rw [at?, at?, unlabelled_eq, List.getElem?_map]
      cases tree.children[position]? with
      | none => rfl
      | some content =>
          cases content with
          | text _ => rfl
          | expression _ => rfl
          | node child => exact ih child

/-! ## Reconciling node by node -/

theorem reconcile_eq (previous current : Node) :
    previous.reconcile current =
      if previous.tag = current.tag then
        { current with
          children := reconcileChildren previous.children current.children, id := previous.id }
      else current := by
  obtain ⟨tag, attributes, children, id⟩ := current
  rw [reconcile]

theorem id_reconcile {previous current : Node} (htag : previous.tag = current.tag) :
    (previous.reconcile current).id = previous.id := by
  rw [reconcile_eq, if_pos htag]

/-- Children are reconciled position by position. -/
theorem getElem?_reconcileChildren (previous current : List (Content Node)) (position : Nat) :
    (reconcileChildren previous current)[position]? =
      match previous[position]?, current[position]? with
      | some (.node earlier), some (.node child) => some (.node (earlier.reconcile child))
      | _, content => content := by
  induction current generalizing previous position with
  | nil => cases previous[position]? <;> simp [reconcileChildren]
  | cons content rest ih =>
      cases previous with
      | nil => simp [reconcileChildren]
      | cons first previous =>
          cases position with
          | zero => cases first <;> cases content <;> simp [reconcileChildren]
          | succ position => cases first <;> cases content <;> simp [reconcileChildren, ih]

/-- Reconciling blanks out: only identifiers are changed. -/
theorem unlabelled_reconcile (previous current : Node) :
    (previous.reconcile current).unlabelled = current.unlabelled := by
  induction current using Node.induction generalizing previous with
  | step current ih =>
      rw [reconcile_eq]
      split
      · have hchildren :
            (reconcileChildren previous.children current.children).map (Content.map unlabelled) =
              current.children.map (Content.map unlabelled) := by
          refine List.ext_getElem? fun position => ?_
          rw [List.getElem?_map, List.getElem?_map, getElem?_reconcileChildren]
          split
          · next earlier child _ hchild =>
              rw [hchild]
              exact congrArg (fun tree => some (Content.node tree))
                (ih child (List.mem_of_getElem? hchild) earlier)
          · rfl
        rw [unlabelled_eq, unlabelled_eq, hchildren]
      · rfl

/-- A built tree stays built: no node is refused when it is relabelled, and no child is dropped. -/
theorem Built.reconcile {current : Node} (hbuilt : current.Built) (previous : Node) :
    (previous.reconcile current).Built := by
  induction current using Node.induction generalizing previous with
  | step current ih =>
      rw [reconcile_eq]
      split
      · obtain ⟨hfragment, hblank⟩ := remade_iff.mp hbuilt.remade
        have hcontent : ∀ content ∈ reconcileChildren previous.children current.children,
            content ∈ current.children ∨ ∃ earlier child, .node child ∈ current.children ∧
              content = .node (Node.reconcile earlier child) := by
          intro content hcontent
          obtain ⟨position, hposition⟩ := List.mem_iff_getElem?.mp hcontent
          rw [getElem?_reconcileChildren] at hposition
          split at hposition
          · next earlier child _ hchild =>
              cases hposition
              exact .inr ⟨earlier, child, List.mem_of_getElem? hchild, rfl⟩
          · exact .inl (List.mem_of_getElem? hposition)
        refine built_iff.mpr ⟨remade_iff.mpr ⟨hfragment, fun content hmem => ?_⟩, fun child hmem => ?_⟩
        · rcases hcontent content hmem with hkept | ⟨earlier, child, _, rfl⟩
          · exact hblank content hkept
          · rfl
        · rcases hcontent (.node child) hmem with hkept | ⟨earlier, child', hkept, heq⟩
          · exact hbuilt.child hkept
          · cases heq
            exact ih child' hkept (hbuilt.child hkept) earlier
      · exact hbuilt

theorem reconcileMade_eq (previous current : Node) :
    previous.reconcileMade current =
      if previous.tag = current.tag then do
        let children ← reconcileMadeChildren previous.children current.children
        make current.tag current.attributes children previous.id
      else .ok current := by
  obtain ⟨tag, attributes, children, id⟩ := current
  rw [reconcileMade]

theorem reconcileMadeChildren_eq {previous current : List (Content Node)}
    (h : ∀ child, .node child ∈ current → ∀ earlier : Node,
      earlier.reconcileMade child = .ok (earlier.reconcile child)) :
    reconcileMadeChildren previous current = .ok (reconcileChildren previous current) := by
  induction current generalizing previous with
  | nil => cases previous <;> rfl
  | cons content rest ih =>
      have hbehind (previous : List (Content Node)) :
          reconcileMadeChildren previous rest = .ok (reconcileChildren previous rest) :=
        ih fun child hchild => h child (List.mem_cons_of_mem _ hchild)
      cases previous with
      | nil => rfl
      | cons first previous =>
          cases first <;> cases content
          case node.node earlier child =>
            rw [reconcileMadeChildren, h child (List.mem_cons_self ..), hbehind, reconcileChildren]
            rfl
          all_goals
            rw [reconcileMadeChildren, hbehind, reconcileChildren]
            · rfl
            all_goals exact nofun

/-- In a built tree no matched node is refused when it is made anew, and none loses a child. -/
theorem Built.reconcileMade {current : Node} (hbuilt : current.Built) (previous : Node) :
    previous.reconcileMade current = .ok (previous.reconcile current) := by
  induction current using Node.induction generalizing previous with
  | step current ih =>
      have hchildren : reconcileMadeChildren previous.children current.children =
          .ok (reconcileChildren previous.children current.children) :=
        reconcileMadeChildren_eq fun child hchild => ih child hchild (hbuilt.child hchild)
      have hmade := (hbuilt.reconcile previous).remade
      rw [reconcileMade_eq, hchildren]
      rw [reconcile_eq] at hmade ⊢
      split at hmade
      · next htag =>
          rw [if_pos htag, if_pos htag]
          exact hmade
      · next htag => rw [if_neg htag, if_neg htag]

/-! ## Where two trees agree -/

/-- On the whole way down a path both trees have nodes, with the same tags. -/
def TagsAgree (previous current : Node) (path : List Nat) : Prop :=
  ∀ front, front <+: path → ∃ earlier node, previous.at? front = some earlier ∧
    current.at? front = some node ∧ earlier.tag = node.tag

theorem tagsAgree_nil {previous current : Node} :
    TagsAgree previous current [] ↔ previous.tag = current.tag := by
  constructor
  · intro h
    obtain ⟨earlier, node, hearlier, hnode, htag⟩ := h [] List.nil_prefix
    cases hearlier
    cases hnode
    exact htag
  · intro htag front hfront
    rw [List.prefix_nil.mp hfront]
    exact ⟨previous, current, rfl, rfl, htag⟩

theorem tagsAgree_cons {previous current : Node} {position : Nat} {path : List Nat} :
    TagsAgree previous current (position :: path) ↔ previous.tag = current.tag ∧
      ∃ earlier child, previous.children[position]? = some (.node earlier) ∧
        current.children[position]? = some (.node child) ∧ TagsAgree earlier child path := by
  constructor
  · intro h
    refine ⟨tagsAgree_nil.mp fun front hfront => h front (hfront.trans List.nil_prefix), ?_⟩
    obtain ⟨earlier, child, hearlier, hchild, _⟩ := h [position] (by simp)
    obtain ⟨earlier, hposition, hsame⟩ := at?_cons_eq_some_iff.mp hearlier
    obtain ⟨child, hposition', hsame'⟩ := at?_cons_eq_some_iff.mp hchild
    cases hsame
    cases hsame'
    refine ⟨earlier, child, hposition, hposition', fun front hfront => ?_⟩
    obtain ⟨a, b, ha, hb, htag⟩ := h (position :: front) (List.cons_prefix_cons.mpr ⟨rfl, hfront⟩)
    rw [at?, hposition] at ha
    rw [at?, hposition'] at hb
    exact ⟨a, b, ha, hb, htag⟩
  · rintro ⟨htag, earlier, child, hearlier, hchild, hbelow⟩ front hfront
    cases front with
    | nil => exact ⟨previous, current, rfl, rfl, htag⟩
    | cons _ front =>
        obtain ⟨rfl, hrest⟩ := List.cons_prefix_cons.mp hfront
        obtain ⟨a, b, ha, hb, htag⟩ := hbelow front hrest
        exact ⟨a, b, at?_cons_eq_some_iff.mpr ⟨earlier, hearlier, ha⟩,
          at?_cons_eq_some_iff.mpr ⟨child, hchild, hb⟩, htag⟩

/-- Where both trees agree on the way down, the nodes at the end are reconciled. -/
theorem at?_reconcile {previous current : Node} {path : List Nat}
    (hagree : TagsAgree previous current path) {earlier node : Node}
    (hearlier : previous.at? path = some earlier) (hnode : current.at? path = some node) :
    (previous.reconcile current).at? path = some (earlier.reconcile node) := by
  induction path generalizing previous current with
  | nil =>
      cases hearlier
      cases hnode
      rfl
  | cons position path ih =>
      obtain ⟨htag, before, child, hbefore, hchild, hbelow⟩ := tagsAgree_cons.mp hagree
      rw [at?, hbefore] at hearlier
      rw [at?, hchild] at hnode
      rw [reconcile_eq, if_pos htag]
      refine at?_cons_eq_some_iff.mpr ⟨before.reconcile child, ?_, ih hbelow hearlier hnode⟩
      rw [getElem?_reconcileChildren, hbefore, hchild]

/-- Where they do not agree, the node at the end is the current one with all that is below it. -/
theorem at?_reconcile_of_not_agree {previous current : Node} {path : List Nat}
    (hagree : ¬TagsAgree previous current path) {node : Node}
    (hnode : current.at? path = some node) :
    (previous.reconcile current).at? path = some node := by
  induction path generalizing previous current with
  | nil => rwa [reconcile_eq, if_neg fun htag => hagree (tagsAgree_nil.mpr htag)]
  | cons position path ih =>
      rw [reconcile_eq]
      split
      · next htag =>
          obtain ⟨child, hchild, hnode⟩ := at?_cons_eq_some_iff.mp hnode
          cases hbefore : previous.children[position]? with
          | none =>
              refine at?_cons_eq_some_iff.mpr ⟨child, ?_, hnode⟩
              rw [getElem?_reconcileChildren, hbefore, hchild]
          | some content =>
              cases content with
              | text _ | expression _ =>
                  refine at?_cons_eq_some_iff.mpr ⟨child, ?_, hnode⟩
                  rw [getElem?_reconcileChildren, hbefore, hchild]
              | node before =>
                  refine at?_cons_eq_some_iff.mpr ⟨before.reconcile child, ?_, ?_⟩
                  · rw [getElem?_reconcileChildren, hbefore, hchild]
                  · exact ih (fun hbelow => hagree (tagsAgree_cons.mpr
                      ⟨htag, before, child, hbefore, hchild, hbelow⟩)) hnode
      · exact hnode

/-- Where a path leads in the reconciled tree, it leads in the current one. -/
theorem exists_at?_of_reconcile {previous current found : Node} {path : List Nat}
    (h : (previous.reconcile current).at? path = some found) :
    ∃ node, current.at? path = some node := by
  have hsame := at?_unlabelled (previous.reconcile current) path
  rw [unlabelled_reconcile, at?_unlabelled, h] at hsame
  obtain ⟨node, hnode, _⟩ := Option.map_eq_some_iff.mp hsame
  exact ⟨node, hnode⟩

/-- Every identifier of the reconciled tree stands at the same path in one of the two trees, and in
the previous one only where both agree. -/
theorem id_at?_reconcile {previous current found : Node} {path : List Nat}
    (h : (previous.reconcile current).at? path = some found) :
    (TagsAgree previous current path ∧
        ∃ earlier, previous.at? path = some earlier ∧ earlier.id = found.id) ∨
      ∃ node, current.at? path = some node ∧ node.id = found.id := by
  obtain ⟨node, hnode⟩ := exists_at?_of_reconcile h
  by_cases hagree : TagsAgree previous current path
  · obtain ⟨earlier, node', hearlier, hnode', htag⟩ := hagree path List.prefix_rfl
    rw [at?_reconcile hagree hearlier hnode'] at h
    cases h
    exact .inl ⟨hagree, earlier, hearlier, (id_reconcile htag).symm⟩
  · rw [at?_reconcile_of_not_agree hagree hnode] at h
    cases h
    exact .inr ⟨found, hnode, rfl⟩

/-! ## Reconciling again -/

/-- Reconciling with the same tree once more changes nothing. -/
theorem reconcile_reconcile (previous current : Node) :
    previous.reconcile (previous.reconcile current) = previous.reconcile current := by
  induction current using Node.induction generalizing previous with
  | step current ih =>
      rw [reconcile_eq previous current]
      split
      · next htag =>
          have hchildren : reconcileChildren previous.children
                (reconcileChildren previous.children current.children) =
              reconcileChildren previous.children current.children := by
            refine List.ext_getElem? fun position => ?_
            simp only [getElem?_reconcileChildren]
            match previous.children[position]?, hcontent : current.children[position]? with
            | some (.node earlier), some (.node child) =>
                exact congrArg (fun tree => some (Content.node tree))
                  (ih child (List.mem_of_getElem? hcontent) earlier)
            | some (.node _), none => rfl
            | some (.node _), some (.text _) => rfl
            | some (.node _), some (.expression _) => rfl
            | some (.text _), _ => rfl
            | some (.expression _), _ => rfl
            | none, _ => rfl
          rw [reconcile_eq, if_pos htag]
          exact congrArg (fun children => { current with children, id := previous.id }) hchildren
      · next htag => rw [reconcile_eq, if_neg htag]

/-- A tree that is reconciled with itself stays as it is. -/
theorem reconcile_self (tree : Node) : tree.reconcile tree = tree := by
  induction tree using Node.induction with
  | step tree ih =>
      have hchildren : reconcileChildren tree.children tree.children = tree.children := by
        refine List.ext_getElem? fun position => ?_
        rw [getElem?_reconcileChildren]
        split
        · next earlier child hearlier hchild =>
            cases Content.node.inj (Option.some.inj (hearlier.symm.trans hchild))
            rw [ih earlier (List.mem_of_getElem? hearlier), hearlier]
        · rfl
      rw [reconcile_eq, if_pos rfl, hchildren]
      cases tree
      rfl

/-! ## Finding earlier identifiers -/

/-- Reconciling keeps identifiers distinct if no tree repeats one and the trees share none. -/
theorem Tells.reconcile {previous current : Node} (hprevious : previous.Tells)
    (hcurrent : current.Tells) (hdisjoint : previous.ids.Disjoint current.ids) :
    (previous.reconcile current).Tells := by
  intro path other a b ha hb hid
  rcases id_at?_reconcile ha with ⟨_, earlier, hearlier, heq⟩ | ⟨node, hnode, heq⟩
  · rcases id_at?_reconcile hb with ⟨_, earlier', hearlier', heq'⟩ | ⟨node', hnode', heq'⟩
    · exact hprevious hearlier hearlier' (by rw [heq, heq', hid])
    · exact (hdisjoint (mem_ids_iff.mpr ⟨path, earlier, hearlier, heq.trans hid⟩)
        (mem_ids_iff.mpr ⟨other, node', hnode', heq'⟩)).elim
  · rcases id_at?_reconcile hb with ⟨_, earlier', hearlier', heq'⟩ | ⟨node', hnode', heq'⟩
    · exact (hdisjoint (mem_ids_iff.mpr ⟨other, earlier', hearlier', heq'.trans hid.symm⟩)
        (mem_ids_iff.mpr ⟨path, node, hnode, heq⟩)).elim
    · exact hcurrent hnode hnode' (by rw [heq, heq', hid])

/-- An earlier identifier is found at its path if both trees agree on the way down. -/
theorem path?_reconcile {previous current earlier : Node} (hprevious : previous.Tells)
    (hcurrent : current.Tells) (hdisjoint : previous.ids.Disjoint current.ids) {path : List Nat}
    (hearlier : previous.at? path = some earlier) (hagree : TagsAgree previous current path) :
    path? earlier.id (previous.reconcile current) = some path := by
  obtain ⟨earlier', node, hearlier', hnode, htag⟩ := hagree path List.prefix_rfl
  cases hearlier.symm.trans hearlier'
  have hfound := at?_reconcile hagree hearlier hnode
  rw [← id_reconcile htag]
  exact (hprevious.reconcile hcurrent hdisjoint).path?_eq_some hfound

/-- An earlier identifier is found nowhere if the trees do not agree on the way down. -/
theorem path?_reconcile_of_not_agree {previous current earlier : Node} (hprevious : previous.Tells)
    (hdisjoint : previous.ids.Disjoint current.ids) {path : List Nat}
    (hearlier : previous.at? path = some earlier) (hagree : ¬TagsAgree previous current path) :
    path? earlier.id (previous.reconcile current) = none := by
  refine path?_eq_none_iff.mpr fun hmem => ?_
  obtain ⟨other, found, hfound, hid⟩ := mem_ids_iff.mp hmem
  rcases id_at?_reconcile hfound with ⟨hother, earlier', hearlier', heq⟩ | ⟨node, hnode, heq⟩
  · cases hprevious hearlier' hearlier (heq.trans hid)
    exact hagree hother
  · exact hdisjoint (mem_ids_iff.mpr ⟨path, earlier, hearlier, rfl⟩)
      (mem_ids_iff.mpr ⟨other, node, hnode, heq.trans hid⟩)

/-! ## What reconciling does -/

/-- Reconciling relabels the nodes on whose paths both trees agree, and nothing else: the tree stays
built and the same but for identifiers; a node takes the earlier identifier exactly where the trees
agree on the way down; reconciling again, or with itself, changes nothing; and with distinct
identifiers an earlier one is found where the trees agree and nowhere else. -/
theorem reconcile_relabels (previous current : Node) (hbuilt : current.Built) :
    (previous.reconcile current).Built ∧
      (previous.reconcile current).unlabelled = current.unlabelled ∧
      (∀ path node, current.at? path = some node →
        ∃ found, (previous.reconcile current).at? path = some found ∧
          (TagsAgree previous current path →
            (previous.at? path).map Node.id = some found.id) ∧
          (¬TagsAgree previous current path → found.id = node.id)) ∧
      previous.reconcile (previous.reconcile current) = previous.reconcile current ∧
      current.reconcile current = current ∧
      (previous.ids.Nodup → current.ids.Nodup → previous.ids.Disjoint current.ids →
        ∀ path earlier, previous.at? path = some earlier →
          (TagsAgree previous current path →
            path? earlier.id (previous.reconcile current) = some path) ∧
          (¬TagsAgree previous current path →
            path? earlier.id (previous.reconcile current) = none)) := by
  refine ⟨hbuilt.reconcile previous, unlabelled_reconcile previous current, fun path node hnode => ?_,
    reconcile_reconcile previous current, reconcile_self current,
    fun hprevious hcurrent hdisjoint path earlier hearlier => ⟨fun hagree => ?_, fun hagree => ?_⟩⟩
  · by_cases hagree : TagsAgree previous current path
    · obtain ⟨earlier, node', hearlier, hnode', htag⟩ := hagree path List.prefix_rfl
      refine ⟨earlier.reconcile node', at?_reconcile hagree hearlier hnode', fun _ => ?_,
        fun hnot => absurd hagree hnot⟩
      rw [hearlier, id_reconcile htag]
      rfl
    · exact ⟨node, at?_reconcile_of_not_agree hagree hnode, fun h => absurd h hagree, fun _ => rfl⟩
  · exact path?_reconcile (nodup_ids_iff.mp hprevious) (nodup_ids_iff.mp hcurrent) hdisjoint hearlier
      hagree
  · exact path?_reconcile_of_not_agree (nodup_ids_iff.mp hprevious) hdisjoint hearlier hagree

/-- A list of an element, a text and an element with a given tag. -/
def sampleList (name first second id : String) : Node :=
  ⟨.named "ul", [], [.node ⟨.named "li", [], [], first⟩, .text "and",
    .node ⟨.named name, [], [], second⟩], id⟩

/-- An element with another tag than before keeps its own identifier. -/
theorem reconcile_sampleList :
    (sampleList "p" "c" "d" "new").Built ∧
      path? "a" ((sampleList "li" "a" "b" "old").reconcile (sampleList "p" "c" "d" "new")) =
        some [0] ∧
      path? "b" ((sampleList "li" "a" "b" "old").reconcile (sampleList "p" "c" "d" "new")) =
        none := by
  have hbuilt : (sampleList "p" "c" "d" "new").Built := by decide
  obtain ⟨_, _, _, _, _, hfind⟩ := reconcile_relabels (sampleList "li" "a" "b" "old") _ hbuilt
  have hfind := hfind (by decide) (by decide) (List.disjoint_left.mpr (by decide))
  refine ⟨hbuilt, (hfind [0] _ rfl).1 ?_, (hfind [2] _ rfl).2 ?_⟩
  · exact tagsAgree_cons.mpr ⟨rfl, _, _, rfl, rfl, tagsAgree_nil.mpr rfl⟩
  · intro hagree
    obtain ⟨_, _, _, hfirst, hsecond, hbelow⟩ := tagsAgree_cons.mp hagree
    cases hfirst
    cases hsecond
    exact absurd (tagsAgree_nil.mp hbelow) (by decide)

end Node

end EditableMarkup
