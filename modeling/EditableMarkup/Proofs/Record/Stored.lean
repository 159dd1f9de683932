import EditableMarkup.Proofs.Tree.Built
import EditableMarkup.Proofs.Tree.Supply
import EditableMarkup.Record.Stored

/-!
# Which trees are stored faithfully

A stored tree is loaded as it was, unless one of three things in it is stored
like something else: an element named as a fragment is stored like a fragment,
a mapping with the key of an expression alone is stored like an expression, and
an empty identifier is stored like a missing one.
-/

namespace EditableMarkup

/-! ## Mappings in values -/

mutual

/-- All mappings in a value, at any depth. -/
def Value.mappings : Value → List (Entries Value)
  | .mapping entries => entries :: Value.mappingsIn entries
  | .string _ => []
  | .number _ => []
  | .boolean _ => []
  | .expression _ => []

/-- All mappings in the values of entries, at any depth. -/
def Value.mappingsIn : List (String × Value) → List (Entries Value)
  | [] => []
  | (_, value) :: rest => value.mappings ++ Value.mappingsIn rest

end

namespace Stored

open Node (remade_iff)

/-- A mapping that has not the key of an expression alone. -/
def IsTold (entries : Entries Value) : Prop :=
  entries.map Prod.fst ≠ [expressionKey]

instance (entries : Entries Value) : Decidable (IsTold entries) :=
  inferInstanceAs (Decidable (_ ≠ _))

/-! ## Values -/

theorem keys_ofEntries (entries : List (String × Value)) :
    (ofEntries entries).map Prod.fst = entries.map Prod.fst := by
  induction entries with
  | nil => rfl
  | cons entry rest ih => simp [ofEntries, ih]

theorem toValue_expression (source : String) :
    toValue (expression source) = .ok (.expression source) := by
  rw [expression, toValue, if_pos rfl]
  rfl

/-- A record with the key of an expression alone is loaded as an expression. -/
theorem exists_toValue_of_keys {fields : List (String × Plain)}
    (h : fields.map Prod.fst = [expressionKey]) :
    ∃ source, toValue (.record fields) = .ok (.expression source) := by
  match fields, h with
  | [(key, value)], h =>
    have hkey : key = expressionKey := by simpa using h
    exact ⟨value.text, by rw [toValue, if_pos hkey]⟩

/-- Every other record is loaded as a mapping. -/
theorem toValue_of_keys {fields : List (String × Plain)}
    (h : fields.map Prod.fst ≠ [expressionKey]) :
    toValue (.record fields) = Value.mapping <$> toEntries fields := by
  match fields, h with
  | [], _ => rfl
  | [(key, value)], h =>
    have hkey : key ≠ expressionKey := by simpa using h
    rw [toValue, if_neg hkey, toEntries]
    cases toValue value <;> rfl
  | _ :: _ :: _, _ => rfl

mutual

/-- A value is loaded as it was stored exactly if all mappings in it are told from expressions. -/
theorem toValue_ofValue_iff : (value : Value) →
    (toValue (ofValue value) = .ok value ↔ ∀ entries ∈ value.mappings, IsTold entries)
  | .string _ => by simp [ofValue, toValue, Value.mappings]
  | .number _ => by simp [ofValue, toValue, Value.mappings]
  | .boolean _ => by simp [ofValue, toValue, Value.mappings]
  | .expression source => by simp [ofValue, toValue_expression, Value.mappings]
  | .mapping entries => by
    rw [ofValue, Value.mappings, List.forall_mem_cons, ← toEntries_ofEntries_iff entries, IsTold,
      ← keys_ofEntries]
    by_cases hkeys : (ofEntries entries).map Prod.fst = [expressionKey]
    · obtain ⟨source, hsource⟩ := exists_toValue_of_keys hkeys
      rw [hsource]
      exact iff_of_false nofun fun h => h.1 hkeys
    · rw [toValue_of_keys hkeys]
      cases toEntries (ofEntries entries) with
      | error fault => exact iff_of_false nofun fun h => nomatch h.2
      | ok found =>
          simp only [Functor.map, Except.map, Except.ok.injEq, Value.mapping.injEq]
          exact ⟨fun h => ⟨hkeys, h⟩, fun h => h.2⟩

theorem toEntries_ofEntries_iff : (entries : List (String × Value)) →
    (toEntries (ofEntries entries) = .ok entries ↔
      ∀ mapping ∈ Value.mappingsIn entries, IsTold mapping)
  | [] => by simp [ofEntries, toEntries, Value.mappingsIn]
  | (key, value) :: rest => by
    rw [ofEntries, toEntries, Value.mappingsIn, List.forall_mem_append, ← toValue_ofValue_iff value,
      ← toEntries_ofEntries_iff rest]
    cases toValue (ofValue value) with
    | error fault => exact iff_of_false nofun fun h => nomatch h.1
    | ok found =>
        cases toEntries (ofEntries rest) with
        | error fault => exact iff_of_false nofun fun h => nomatch h.2
        | ok others => simp [bind, Except.bind, pure, Except.pure]

end

theorem toTag_ofTag_iff (tag : Tag) : toTag (ofTag tag) = tag ↔ tag ≠ .named fragmentType := by
  cases tag with
  | fragment => simp [ofTag, toTag]
  | named name =>
      by_cases hname : name = fragmentType
      · simp [ofTag, toTag, hname]
      · simp [ofTag, toTag, hname]

/-! ## Nodes -/

/-- The identifier under which a tree is loaded, which is minted if it was empty. -/
def loadedId (id : String) (supply : Supply) : String × Supply :=
  if id = "" then supply.mint else (id, supply)

theorem loadedId_eq_iff {id : String} {supply : Supply} : (loadedId id supply).1 = id ↔ id ≠ "" := by
  rw [loadedId]
  split
  · next hempty =>
      rw [hempty]
      exact iff_of_false (Supply.identifier_ne_empty _) (by simp)
  · next hid => exact iff_of_true rfl hid

theorem isMissing_string (id : String) : isMissing (some (.string id)) = decide (id = "") := by
  by_cases hid : id = ""
  · rw [hid]
    rfl
  · rw [decide_eq_false hid, isMissing]
    all_goals simp [hid]

/-- The fields under which a node is stored. -/
def nodeFields (tree : Node) : Entries Plain :=
  [("type", .string (ofTag tree.tag)), ("props", .record (ofEntries tree.attributes)),
    ("children", .list (ofChildren tree.children)), ("id", .string tree.id)]

theorem ofNode_eq (tree : Node) : ofNode tree = .record (nodeFields tree) := by
  cases tree
  rw [ofNode]
  rfl

/-- How a stored tree is loaded, part by part. -/
def loaded (supply : Supply) (tree : Node) : Except Fault (Node × Supply) := do
  let attributes ← toEntries (ofEntries tree.attributes)
  let (children, supply) ← toChildren supply (ofChildren tree.children)
  let node ← Node.make (toTag (ofTag tree.tag)) attributes children (loadedId tree.id supply).1
  return (node, (loadedId tree.id supply).2)

theorem identifierOf_nodeFields (tree : Node) (supply : Supply) :
    identifierOf (nodeFields tree) supply = loadedId tree.id supply := by
  have hfind : (nodeFields tree).find? "id" = some (.string tree.id) := rfl
  rw [identifierOf, hfind, isMissing_string, loadedId]
  by_cases hid : tree.id = "" <;> simp [hid, Plain.text]

theorem headOf_nodeFields (tree : Node) :
    headOf (nodeFields tree) =
      (fun attributes => (toTag (ofTag tree.tag), attributes)) <$>
        toEntries (ofEntries tree.attributes) := by
  have htype : requiredField "type" (nodeFields tree) = .ok (.string (ofTag tree.tag)) := rfl
  have hprops : attributesOf (nodeFields tree) = toEntries (ofEntries tree.attributes) := rfl
  rw [headOf, htype, hprops]
  cases toEntries (ofEntries tree.attributes) <;> rfl

theorem childrenField_nodeFields (tree : Node) (supply : Supply) :
    childrenField supply (nodeFields tree) = toChildren supply (ofChildren tree.children) := by
  simp [nodeFields, childrenField, childrenOf]

theorem toNode_ofNode (supply : Supply) (tree : Node) :
    toNode supply (ofNode tree) = loaded supply tree := by
  rw [ofNode_eq, toNode, headOf_nodeFields, childrenField_nodeFields, loaded]
  cases toEntries (ofEntries tree.attributes) with
  | error fault => rfl
  | ok attributes =>
      cases toChildren supply (ofChildren tree.children) with
      | error fault => rfl
      | ok found =>
          simp only [Functor.map, Except.map, bind, Except.bind, assemble, identifierOf_nodeFields]

theorem toChild_ofNode (supply : Supply) (tree : Node) :
    toChild supply (ofNode tree) =
      (fun found => (Content.node found.1, found.2)) <$> loaded supply tree := by
  have hexpression : (nodeFields tree).find? expressionKey = none := rfl
  rw [← toNode_ofNode, ofNode_eq, toNode, toChild, hexpression]
  cases headOf (nodeFields tree) with
  | error fault => rfl
  | ok head =>
      cases childrenField supply (nodeFields tree) with
      | error fault => rfl
      | ok found =>
          simp only [bind, Except.bind]
          cases assemble head (nodeFields tree) found.1 found.2 <;> rfl

/-- How a stored child is loaded: texts and expressions as they were. -/
def loadedChild (supply : Supply) : Content Node → Except Fault (Content Node × Supply)
  | .node tree => (fun found => (Content.node found.1, found.2)) <$> loaded supply tree
  | .text value => .ok (.text value, supply)
  | .expression source => .ok (.expression source, supply)

theorem toChildren_ofChildren_cons (supply : Supply) (child : Content Node)
    (rest : List (Content Node)) :
    toChildren supply (ofChildren (child :: rest)) = (do
      let (first, supply) ← loadedChild supply child
      let (others, supply) ← toChildren supply (ofChildren rest)
      return (first :: others, supply)) := by
  cases child with
  | text value => rw [ofChildren, toChildren, toChild, loadedChild]
  | expression source =>
      have hfind : Entries.find? expressionKey [(expressionKey, Plain.string source)] =
          some (.string source) := rfl
      rw [ofChildren, toChildren, expression, toChild, hfind]
      rfl
  | node tree => rw [ofChildren, toChildren, toChild_ofNode, loadedChild]

theorem isBlankText_of_loadedChild {supply after : Supply} {child found : Content Node}
    (h : loadedChild supply child = .ok (found, after)) : found.isBlankText = child.isBlankText := by
  cases child with
  | text _ => cases h; rfl
  | expression _ => cases h; rfl
  | node tree =>
      rw [loadedChild] at h
      cases hloaded : loaded supply tree with
      | error fault => rw [hloaded] at h; cases h
      | ok loaded => rw [hloaded] at h; cases h; rfl

/-- Loading children makes no text blank that was not blank. -/
theorem isBlankText_of_toChildren {supply after : Supply} {children found : List (Content Node)}
    (h : toChildren supply (ofChildren children) = .ok (found, after)) :
    found.map Content.isBlankText = children.map Content.isBlankText := by
  induction children generalizing supply found after with
  | nil =>
      rw [ofChildren, toChildren] at h
      cases h
      rfl
  | cons child rest ih =>
      rw [toChildren_ofChildren_cons] at h
      obtain ⟨⟨first, supply'⟩, hfirst, h⟩ := exists_of_bind_eq_ok h
      obtain ⟨⟨others, supply''⟩, hothers, h⟩ := exists_of_bind_eq_ok h
      cases h
      rw [List.map_cons, List.map_cons, isBlankText_of_loadedChild hfirst, ih hothers]

/-! ## Faithful trees -/

/-- A node that is not stored like something else. -/
structure IsFaithful (node : Node) : Prop where
  tag : node.tag ≠ .named fragmentType
  mappings : ∀ entries ∈ Value.mappingsIn node.attributes, IsTold entries
  id : node.id ≠ ""

/-- A tree is loaded as it was stored exactly if its root is faithful and its children are loaded as
they were. -/
theorem loaded_eq_iff {supply after : Supply} {tree : Node} (htree : tree.Remade) :
    loaded supply tree = .ok (tree, after) ↔ IsFaithful tree ∧
      toChildren supply (ofChildren tree.children) = .ok (tree.children, after) := by
  obtain ⟨hfragment, hblank⟩ := remade_iff.mp htree
  constructor
  · intro h
    obtain ⟨attributes, hattributes, h⟩ := exists_of_bind_eq_ok h
    obtain ⟨⟨children, supply'⟩, hchildren, h⟩ := exists_of_bind_eq_ok h
    obtain ⟨node, hnode, h⟩ := exists_of_bind_eq_ok h
    obtain ⟨hsame, hafter⟩ := Prod.mk.inj (Except.ok.inj h)
    have hkept : Node.withoutBlankTexts children = children := by
      refine Node.withoutBlankTexts_of_forall fun child hchild => ?_
      have hmem := List.mem_map_of_mem (f := Content.isBlankText) hchild
      rw [isBlankText_of_toChildren hchildren] at hmem
      obtain ⟨kept, hkept, heq⟩ := List.mem_map.mp hmem
      rw [← heq, hblank kept hkept]
    rw [Node.make_eq, hkept, hsame] at hnode
    split at hnode
    · cases hnode
    · have hparts := Except.ok.inj hnode
      have htag : toTag (ofTag tree.tag) = tree.tag := congrArg Node.tag hparts
      have hentries : attributes = tree.attributes := congrArg Node.attributes hparts
      have hbelow : children = tree.children := congrArg Node.children hparts
      have hid : (loadedId tree.id supply').1 = tree.id := congrArg Node.id hparts
      rw [hentries] at hattributes
      rw [hbelow] at hchildren
      have hnonempty := loadedId_eq_iff.mp hid
      have hsupply : supply' = after := by rw [← hafter, loadedId, if_neg hnonempty]
      rw [hsupply] at hchildren
      exact ⟨⟨(toTag_ofTag_iff _).mp htag, (toEntries_ofEntries_iff _).mp hattributes, hnonempty⟩,
        hchildren⟩
  · rintro ⟨hfaithful, hchildren⟩
    have hattributes := (toEntries_ofEntries_iff _).mpr hfaithful.mappings
    have htag := (toTag_ofTag_iff _).mpr hfaithful.tag
    have hid : loadedId tree.id after = (tree.id, after) := if_neg hfaithful.id
    rw [loaded, hattributes, hchildren]
    simp only [bind, Except.bind, htag, hid]
    rw [show Node.make tree.tag tree.attributes tree.children tree.id = .ok tree from htree]
    rfl

/-- Each node of a tree is faithful. -/
def AllFaithful (tree : Node) : Prop :=
  ∀ node ∈ tree.nodes, IsFaithful node

theorem loadedChild_eq_iff {supply after : Supply} {child : Content Node}
    (hnode : ∀ tree, child = .node tree →
      (loaded supply tree = .ok (tree, after) ↔ after = supply ∧ AllFaithful tree)) :
    loadedChild supply child = .ok (child, after) ↔
      after = supply ∧ ∀ tree, child = .node tree → AllFaithful tree := by
  cases child with
  | text value => simp [loadedChild, eq_comm]
  | expression source => simp [loadedChild, eq_comm]
  | node tree =>
      have hloaded : loadedChild supply (.node tree) = .ok (.node tree, after) ↔
          loaded supply tree = .ok (tree, after) := by
        rw [loadedChild]
        cases loaded supply tree with
        | error fault => exact iff_of_false nofun nofun
        | ok found =>
            simp only [Functor.map, Except.map, Except.ok.injEq, Content.node.injEq,
              Prod.ext_iff]
      rw [hloaded, hnode tree rfl]
      simp

/-- Children are loaded as they were exactly if the nodes among them are. -/
theorem toChildren_ofChildren_eq_iff {children : List (Content Node)}
    (hnodes : ∀ child, .node child ∈ children → ∀ supply after,
      loaded supply child = .ok (child, after) ↔ after = supply ∧ AllFaithful child)
    {supply after : Supply} :
    toChildren supply (ofChildren children) = .ok (children, after) ↔
      after = supply ∧ ∀ child, .node child ∈ children → AllFaithful child := by
  induction children generalizing supply after with
  | nil => simp [ofChildren, toChildren, eq_comm]
  | cons child rest ih =>
      have hchild (supply after : Supply) := @loadedChild_eq_iff supply after child
        fun tree heq => hnodes tree (heq ▸ List.mem_cons_self ..) supply after
      have hrest (supply after : Supply) := @ih
        (fun tree htree => hnodes tree (List.mem_cons_of_mem _ htree)) supply after
      rw [toChildren_ofChildren_cons]
      constructor
      · intro h
        obtain ⟨⟨first, supply'⟩, hfirst, h⟩ := exists_of_bind_eq_ok h
        obtain ⟨⟨others, supply''⟩, hothers, h⟩ := exists_of_bind_eq_ok h
        cases h
        obtain ⟨rfl, hfaithful⟩ := (hchild _ _).mp hfirst
        obtain ⟨rfl, hbelow⟩ := (hrest _ _).mp hothers
        refine ⟨rfl, fun tree htree => ?_⟩
        rcases List.mem_cons.mp htree with heq | htree
        · exact hfaithful tree heq.symm
        · exact hbelow tree htree
      · rintro ⟨rfl, hfaithful⟩
        have hfirst := (hchild after after).mpr
          ⟨rfl, fun tree heq => hfaithful tree (heq ▸ List.mem_cons_self ..)⟩
        have hothers := (hrest after after).mpr
          ⟨rfl, fun tree htree => hfaithful tree (List.mem_cons_of_mem _ htree)⟩
        rw [hfirst]
        simp only [bind, Except.bind, hothers]
        rfl

/-- A built tree is loaded as it was stored exactly if all of its nodes are faithful, and then no
identifier is minted. -/
theorem loaded_eq_iff_allFaithful {tree : Node} (hbuilt : tree.Built) (supply after : Supply) :
    loaded supply tree = .ok (tree, after) ↔ after = supply ∧ AllFaithful tree := by
  induction tree using Node.induction generalizing supply after with
  | step tree ih =>
      rw [loaded_eq_iff (Node.built_iff.mp hbuilt).1,
        toChildren_ofChildren_eq_iff fun child hchild => ih child hchild (hbuilt.child hchild)]
      constructor
      · rintro ⟨htree, rfl, hbelow⟩
        refine ⟨rfl, fun node hnode => ?_⟩
        rcases Node.mem_nodes_iff.mp hnode with rfl | ⟨child, hchild, hnode⟩
        · exact htree
        · exact hbelow child hchild node hnode
      · rintro ⟨rfl, hfaithful⟩
        exact ⟨hfaithful tree (Node.mem_nodes_self tree), rfl, fun child hchild node hnode =>
          hfaithful node (Node.mem_nodes_iff.mpr (.inr ⟨child, hchild, hnode⟩))⟩

/-- A built tree that is stored is loaded as it was exactly if no node in it is stored like something
else: no element is named as a fragment, no mapping has the key of an expression alone, and no
identifier is empty. -/
theorem toNode_ofNode_iff {tree : Node} (hbuilt : tree.Built) (supply : Supply) :
    (∃ after, toNode supply (ofNode tree) = .ok (tree, after)) ↔
      ∀ node ∈ tree.nodes, node.tag ≠ .named "Fragment" ∧
        (∀ entries ∈ Value.mappingsIn node.attributes,
          entries.map Prod.fst ≠ ["$expression"]) ∧ node.id ≠ "" := by
  simp only [toNode_ofNode, loaded_eq_iff_allFaithful hbuilt, exists_eq_left]
  refine forall₂_congr fun node _ => ?_
  exact ⟨fun h => ⟨h.tag, h.mappings, h.id⟩, fun ⟨htag, hmappings, hid⟩ => ⟨htag, hmappings, hid⟩⟩

/-- An element whose attribute is a mapping with a given key. -/
def keyed (key : String) : Node :=
  ⟨.named "a", [("style", .mapping [(key, .string "red")])],
    [.text "text", .node ⟨.fragment, [], [], "inner"⟩], "outer"⟩

/-- A mapping is not loaded as it was if its only key is the key of an expression. -/
theorem toNode_ofNode_keyed :
    (keyed "color").Built ∧ (keyed "$expression").Built ∧
      (∃ after, toNode ⟨0⟩ (ofNode (keyed "color")) = .ok (keyed "color", after)) ∧
      ¬∃ after, toNode ⟨0⟩ (ofNode (keyed "$expression")) = .ok (keyed "$expression", after) := by
  have hcolor : (keyed "color").Built := by decide
  have hexpression : (keyed "$expression").Built := by decide
  refine ⟨hcolor, hexpression, (toNode_ofNode_iff hcolor ⟨0⟩).mpr (by decide), fun h => ?_⟩
  exact absurd ((toNode_ofNode_iff hexpression ⟨0⟩).mp h) (by decide)

end Stored

end EditableMarkup
