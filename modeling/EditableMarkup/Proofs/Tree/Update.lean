import EditableMarkup.Proofs.Tree.Frame
import EditableMarkup.Proofs.Tree.Supply
import EditableMarkup.Tree.Update

/-!
# What an update changes

An update changes the node to which the search for its identifier leads, and
nothing else.  It is refused exactly if the changed node would be a fragment
with attributes: the nodes above it are made anew, but in a built tree that is
never refused and drops no child.
-/

namespace EditableMarkup

/-- A node with the given fields exchanged, without the blank texts among new children; its
identifier and the fields that are not given are kept. -/
def Changes.exchange (changes : Changes) (node : Node) : Node where
  tag := changes.tag.getD node.tag
  attributes := changes.attributes.getD node.attributes
  children := (changes.children.map Node.withoutBlankTexts).getD node.children
  id := node.id

namespace Node

/-- A node whose tag and attributes are refused. -/
def IsRefused (node : Node) : Prop :=
  node.tag = .fragment ∧ node.attributes ≠ []

instance (node : Node) : Decidable node.IsRefused :=
  inferInstanceAs (Decidable (_ ∧ _))

/-- A changed node is made of its exchanged fields, unless these are refused. -/
theorem change_eq {node : Node} (hnode : node.Remade) {changes : Changes}
    (hknown : changes.unknown = []) :
    node.change changes =
      if (changes.exchange node).IsRefused then .error .fragmentAttributes
      else .ok (changes.exchange node) := by
  have hchildren : withoutBlankTexts (changes.children.getD node.children) =
      (changes.children.map withoutBlankTexts).getD node.children := by
    cases changes.children with
    | none => exact withoutBlankTexts_of_forall (remade_iff.mp hnode).2
    | some _ => rfl
  rw [change, hknown]
  simp only [make_eq, hchildren]
  rfl

/-! ## Updating below a node -/

theorem updateFirst?_of_id {id : String} {tree : Node} (hid : tree.id = id) (changes : Changes) :
    updateFirst? id changes tree = some <$> tree.change changes := by
  obtain ⟨tag, attributes, children, own⟩ := tree
  rw [updateFirst?, if_pos hid]
  rfl

/-- A node with another identifier is made anew, if a node below it is updated. -/
theorem updateFirst?_of_ne {id : String} {tree : Node} (hid : tree.id ≠ id) (changes : Changes) :
    updateFirst? id changes tree = (do
      match ← updateIn? id changes tree.children with
      | some children => some <$> make tree.tag tree.attributes children tree.id
      | none => .ok none) := by
  obtain ⟨tag, attributes, children, own⟩ := tree
  rw [updateFirst?, if_neg hid]
  rfl

theorem updateIn?_eq_none {id : String} {changes : Changes} {children : List (Content Node)}
    (h : ∀ child, .node child ∈ children → updateFirst? id changes child = .ok none) :
    updateIn? id changes children = .ok none := by
  induction children with
  | nil => rfl
  | cons content rest ih =>
      have hrest := ih fun child hchild => h child (List.mem_cons_of_mem _ hchild)
      cases content with
      | text _ => rw [updateIn?, hrest]; rfl
      | expression _ => rw [updateIn?, hrest]; rfl
      | node child => rw [updateIn?, h child (List.mem_cons_self ..), hrest]; rfl

/-- Where no node has the identifier, nothing is updated and nothing is refused. -/
theorem updateFirst?_of_path?_eq_none {id : String} {tree : Node} (h : path? id tree = none)
    (changes : Changes) : updateFirst? id changes tree = .ok none := by
  induction tree using Node.induction with
  | step tree ih =>
      rw [path?_eq] at h
      split at h
      · cases h
      · next hid =>
          have hbelow := updateIn?_eq_none fun child hchild =>
            ih child hchild (pathIn?_eq_none_iff.mp h child hchild)
          rw [updateFirst?_of_ne hid, hbelow]
          rfl

/-- Where nothing is updated, no child is. -/
theorem updateFirst?_of_updateIn?_eq_none {id : String} {changes : Changes}
    {children : List (Content Node)} (h : updateIn? id changes children = .ok none) {child : Node}
    (hchild : .node child ∈ children) : updateFirst? id changes child = .ok none := by
  induction children with
  | nil => cases hchild
  | cons content rest ih =>
      -- the rest is searched behind every kind of child, unless that child is updated
      have hrest : updateIn? id changes rest = .ok none ∧
          ∀ node, content = .node node → updateFirst? id changes node = .ok none := by
        cases content with
        | text _ | expression _ =>
            rw [updateIn?] at h
            obtain ⟨found, hfound, h⟩ := exists_of_bind_eq_ok h
            cases found with
            | none => exact ⟨hfound, nofun⟩
            | some _ => cases h
        | node node =>
            rw [updateIn?] at h
            obtain ⟨found, hfound, h⟩ := exists_of_bind_eq_ok h
            cases found with
            | some _ => cases h
            | none =>
                obtain ⟨behind, hbehind, h⟩ := exists_of_bind_eq_ok h
                cases behind with
                | none => exact ⟨hbehind, fun other hother => by cases hother; exact hfound⟩
                | some _ => cases h
      rcases List.mem_cons.mp hchild with heq | hchild
      · exact hrest.2 child heq.symm
      · exact ih hrest.1 hchild

/-- Nothing is updated exactly where no node has the identifier. -/
theorem updateFirst?_eq_ok_none_iff {id : String} {changes : Changes} {tree : Node} :
    updateFirst? id changes tree = .ok none ↔ id ∉ tree.ids := by
  refine ⟨fun h => ?_, fun h => updateFirst?_of_path?_eq_none (path?_eq_none_iff.mpr h) changes⟩
  induction tree using Node.induction with
  | step tree ih =>
      by_cases hid : tree.id = id
      · rw [updateFirst?_of_id hid] at h
        cases hchange : tree.change changes <;> rw [hchange] at h <;> cases h
      · rw [updateFirst?_of_ne hid] at h
        obtain ⟨found, hfound, h⟩ := exists_of_bind_eq_ok h
        cases found with
        | some children =>
            dsimp only at h
            cases hmade : make tree.tag tree.attributes children tree.id <;> rw [hmade] at h <;>
              cases h
        | none =>
            rw [ids_eq, List.mem_cons, List.mem_flatMap]
            rintro (heq | ⟨content, hcontent, hmem⟩)
            · exact hid heq.symm
            · cases content with
              | text _ | expression _ => cases hmem
              | node child =>
                  exact ih child hcontent (updateFirst?_of_updateIn?_eq_none hfound hcontent) hmem

/-- Children are updated in the first of them in which a node is updated. -/
theorem updateIn?_eq {id : String} {changes : Changes} {children : List (Content Node)}
    {position : Nat} {child : Node} (hchild : children[position]? = some (.node child))
    (hbefore : ∀ other, .node other ∈ children.take position →
      updateFirst? id changes other = .ok none)
    {outcome : Except Fault Node} (hfound : updateFirst? id changes child = some <$> outcome) :
    updateIn? id changes children =
      (fun new => some (children.set position (.node new))) <$> outcome := by
  induction children generalizing position with
  | nil => cases hchild
  | cons content rest ih =>
      cases position with
      | zero =>
          cases hchild
          rw [updateIn?, hfound]
          cases outcome <;> rfl
      | succ position =>
          have hrest := ih hchild fun other hother => hbefore other (List.mem_cons_of_mem _ hother)
          cases content with
          | text _ => rw [updateIn?, hrest]; cases outcome <;> rfl
          | expression _ => rw [updateIn?, hrest]; cases outcome <;> rfl
          | node other =>
              rw [updateIn?, hbefore other (List.mem_cons_self ..), hrest]
              cases outcome <;> rfl

/-- A node above an updated one is not refused when it is made anew, and keeps its children. -/
theorem make_set {tree : Node} (htree : tree.Remade) (position : Nat) (new : Node) :
    make tree.tag tree.attributes (tree.children.set position (.node new)) tree.id =
      .ok { tree with children := tree.children.set position (.node new) } := by
  obtain ⟨hfragment, hblank⟩ := remade_iff.mp htree
  have hset : ∀ content ∈ tree.children.set position (.node new), content.isBlankText = false := by
    intro content hcontent
    rcases List.mem_or_eq_of_mem_set hcontent with hmem | rfl
    · exact hblank content hmem
    · rfl
  have hmade : Remade { tree with children := tree.children.set position (.node new) } :=
    remade_iff.mpr ⟨hfragment, hset⟩
  exact hmade

/-- A built tree stays built when a subtree is replaced by another built one. -/
theorem Built.replaceAt {tree target new : Node} (htree : tree.Built) {path : List Nat}
    (htarget : tree.at? path = some target) (hnew : new.Built) : (tree.replaceAt new path).Built := by
  induction path generalizing tree with
  | nil => exact hnew
  | cons position path ih =>
      obtain ⟨child, hchild, htarget⟩ := at?_cons_eq_some_iff.mp htarget
      rw [replaceAt_cons hchild]
      refine built_of_make (make_set htree.remade position (child.replaceAt new path)) ?_
      intro other hother
      rcases List.mem_or_eq_of_mem_set hother with hkept | heq
      · exact htree.child hkept
      · cases heq
        exact ih (htree.child (List.mem_of_getElem? hchild)) htarget

/-- Where a path is found, the node at its end is changed and takes its place. -/
theorem updateFirst?_of_path? {id : String} {tree : Node} (hbuilt : tree.Built) {path : List Nat}
    (hpath : path? id tree = some path) {target : Node} (htarget : tree.at? path = some target)
    (changes : Changes) :
    updateFirst? id changes tree =
      (fun new => some (tree.replaceAt new path)) <$> target.change changes := by
  induction tree using Node.induction generalizing path with
  | step tree ih =>
      rw [path?_eq] at hpath
      split at hpath
      · next hid =>
          cases hpath
          cases htarget
          rw [updateFirst?_of_id hid]
          rfl
      · next hid =>
          obtain ⟨position, child, rest, rfl, hchild, hrest, hnone⟩ := pathIn?_eq_some hpath
          rw [Nat.zero_add] at htarget ⊢
          obtain ⟨child', hchild', htarget⟩ := at?_cons_eq_some_iff.mp htarget
          cases (Option.some.inj (hchild.symm.trans hchild'))
          have hmem := List.mem_of_getElem? hchild
          have hbelow := ih child hmem (hbuilt.child hmem) hrest htarget
          have hfound : updateFirst? id changes child =
              some <$> ((child.replaceAt · rest) <$> target.change changes) := by
            rw [hbelow]
            cases target.change changes <;> rfl
          have hin := updateIn?_eq hchild
            (fun other hother => updateFirst?_of_path?_eq_none (hnone other hother) changes) hfound
          rw [updateFirst?_of_ne hid, hin]
          cases target.change changes with
          | error fault => rfl
          | ok new =>
              have hmade := make_set hbuilt.remade position (child.replaceAt new rest)
              simp only [Functor.map, Except.map, bind, Except.bind, hmade, replaceAt_cons hchild]

/-! ## Updating a tree -/

theorem update?_eq {changes : Changes} (hknown : changes.unknown = []) (tree : Node) (id : String) :
    tree.update? id changes = updateFirst? id changes tree := by
  have hcheck : changes.check = .ok () := by rw [Changes.check, hknown]; rfl
  rw [update?, hcheck]
  rfl

theorem update_eq (tree : Node) (id : String) (changes : Changes) :
    tree.update id changes = (fun found => found.getD tree) <$> tree.update? id changes :=
  rfl

/-- What becomes of an update is decided where its path ends: the change of that node is refused, or
the changed node takes its place. -/
theorem update_of_path? {id : String} {tree : Node} (hbuilt : tree.Built) {path : List Nat}
    (hpath : path? id tree = some path) {target : Node} (htarget : tree.at? path = some target)
    {changes : Changes} (hknown : changes.unknown = []) :
    tree.update id changes = (fun new => tree.replaceAt new path) <$> target.change changes := by
  rw [update_eq, update?_eq hknown, updateFirst?_of_path? hbuilt hpath htarget]
  cases target.change changes <;> rfl

theorem update_of_path?_eq_none {id : String} {tree : Node} (hpath : path? id tree = none)
    {changes : Changes} (hknown : changes.unknown = []) : tree.update id changes = .ok tree := by
  rw [update_eq, update?_eq hknown, updateFirst?_of_path?_eq_none hpath]
  rfl

/-- A built tree stays built when it is updated with built children. -/
theorem Built.update {tree new : Node} (htree : tree.Built) {id : String} {changes : Changes}
    (hknown : changes.unknown = [])
    (hchildren : ∀ children, changes.children = some children →
      ∀ child, .node child ∈ children → child.Built)
    (h : tree.update id changes = .ok new) : new.Built := by
  cases hpath : path? id tree with
  | none =>
      rw [update_of_path?_eq_none hpath hknown] at h
      cases h
      exact htree
  | some path =>
      obtain ⟨target, htarget, _⟩ := exists_at?_of_path? hpath
      rw [update_of_path? htree hpath htarget hknown] at h
      cases hchange : target.change changes with
      | error fault =>
          rw [hchange] at h
          cases h
      | ok changed =>
          rw [hchange] at h
          cases h
          refine htree.replaceAt htarget ?_
          rw [change, hknown] at hchange
          refine built_of_make hchange fun child hchild => ?_
          cases hnew : changes.children with
          | none =>
              rw [hnew] at hchild
              exact (htree.at? htarget).child hchild
          | some children =>
              rw [hnew] at hchild
              exact hchildren children hnew child hchild

/-- An update leaves a tree in which no path is found as it is.  Otherwise it puts the node at the
end of the path, with the given fields exchanged, in that node's place, unless it would be a fragment
with attributes; away from that place all nodes keep their faces. -/
theorem update_at_path {tree : Node} (hbuilt : tree.Built) (id : String) (tag : Option Tag)
    (attributes : Option (Entries Value)) (children : Option (List (Content Node))) :
    (path? id tree = none → tree.update? id { tag, attributes, children } = .ok none ∧
        tree.update id { tag, attributes, children } = .ok tree) ∧
      ∀ path, path? id tree = some path → ∃ target changed, tree.at? path = some target ∧
        target.id = id ∧ changed = Changes.exchange { tag, attributes, children } target ∧
        (tree.update id { tag, attributes, children } = .error .fragmentAttributes ↔
          changed.IsRefused) ∧
        (¬changed.IsRefused →
          tree.update id { tag, attributes, children } = .ok (tree.replaceAt changed path)) ∧
        (tree.replaceAt changed path).at? path = some changed ∧
        ∀ other, ¬path <+: other →
          ((tree.replaceAt changed path).at? other).map face = (tree.at? other).map face := by
  refine ⟨fun hnone => ?_, fun path hpath => ?_⟩
  · have hkept : tree.update? id { tag, attributes, children } = .ok none := by
      rw [update?_eq rfl, updateFirst?_of_path?_eq_none hnone]
    exact ⟨hkept, update_of_path?_eq_none hnone rfl⟩
  · obtain ⟨target, htarget, hid⟩ := exists_at?_of_path? hpath
    have hupdate : tree.update id { tag, attributes, children } =
        (fun new => tree.replaceAt new path) <$> target.change { tag, attributes, children } :=
      update_of_path? hbuilt hpath htarget rfl
    rw [change_eq (hbuilt.at? htarget).remade rfl] at hupdate
    refine ⟨target, _, htarget, hid, rfl, ?_, fun haccepted => ?_, at?_replaceAt htarget _,
      fun other haway => face_at?_replaceAt htarget _ haway⟩
    · rw [hupdate]
      split
      · next hrefused => exact iff_of_true rfl hrefused
      · next haccepted => exact iff_of_false nofun haccepted
    · rw [hupdate, if_neg haccepted]
      rfl

/-- A list with two elements of one identifier. -/
def twins : Node :=
  ⟨.named "ul", [], [.text "items",
    .node ⟨.named "li", [("key", .string "a")], [.text "first"], "twin"⟩,
    .node ⟨.named "li", [("key", .string "b")], [], "twin"⟩], "list"⟩

/-- Only the first of two elements of one identifier is changed, and stays without attributes if it
becomes a fragment. -/
theorem update_twins :
    twins.Built ∧ path? "twin" twins = some [1] ∧
      twins.update "twin" { tag := some .fragment } = .error .fragmentAttributes ∧
      ∃ changed, twins.update "twin" { tag := some .fragment, attributes := some [] } =
          .ok (twins.replaceAt changed [1]) ∧
        ((twins.replaceAt changed [1]).at? [2]).map face = (twins.at? [2]).map face := by
  have hbuilt : twins.Built := by decide
  have hpath : path? "twin" twins = some [1] := by decide
  obtain ⟨target, changed, htarget, _, hchanged, hrefused, _⟩ :=
    (update_at_path hbuilt "twin" (some .fragment) none none).2 [1] hpath
  obtain ⟨target', changed', htarget', _, hchanged', _, hdone, _, haway⟩ :=
    (update_at_path hbuilt "twin" (some .fragment) (some []) none).2 [1] hpath
  cases htarget
  cases htarget'
  refine ⟨hbuilt, hpath, hrefused.mpr ?_, changed', hdone ?_, haway [2] (by decide)⟩
  · rw [hchanged]
    decide
  · rw [hchanged']
    decide

end Node

end EditableMarkup
