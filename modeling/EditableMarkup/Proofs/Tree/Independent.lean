import EditableMarkup.Proofs.Tree.Update

/-!
# Repeated and independent updates

Of two updates of one node the second one has the last word, field by field.
Updates of different nodes are made in either order, if neither of them brings new
children, or if neither node is in the other one and the new children have no node
that one of the updates is meant for.
-/

namespace EditableMarkup

namespace Changes

/-- All fields that one of two changes gives; where both give a field, it is the second one's. -/
def overriddenBy (first second : Changes) : Changes where
  tag := second.tag <|> first.tag
  attributes := second.attributes <|> first.attributes
  children := second.children <|> first.children
  unknown := first.unknown ++ second.unknown

/-- Changes of fields that a node has, with built nodes among new children. -/
structure Regular (changes : Changes) : Prop where
  known : changes.unknown = []
  built : ∀ children, changes.children = some children → ∀ child, .node child ∈ children →
    child.Built

/-- No node among new children, or below them, has an identifier. -/
def Avoids (changes : Changes) (id : String) : Prop :=
  ∀ children, changes.children = some children → ∀ content ∈ children, id ∉ content.ids

variable {first second changes : Changes}

theorem Regular.overriddenBy (hfirst : first.Regular) (hsecond : second.Regular) :
    (first.overriddenBy second).Regular where
  known := List.append_eq_nil_iff.mpr ⟨hfirst.known, hsecond.known⟩
  built children hchildren := by
    rw [Changes.overriddenBy] at hchildren
    cases hnew : second.children with
    | none =>
        rw [hnew] at hchildren
        exact hfirst.built children hchildren
    | some new =>
        rw [hnew] at hchildren
        exact hsecond.built children (hnew.trans hchildren)

/-- Exchanging fields twice is exchanging them once, for the last values. -/
theorem exchange_exchange (first second : Changes) (node : Node) :
    second.exchange (first.exchange node) = (first.overriddenBy second).exchange node := by
  obtain ⟨tag, attributes, children, _⟩ := first
  obtain ⟨tag', attributes', children', _⟩ := second
  cases tag' <;> cases attributes' <;> cases children' <;> rfl

theorem overriddenBy_self (changes : Changes) (hknown : changes.unknown = []) :
    changes.overriddenBy changes = changes := by
  obtain ⟨tag, attributes, children, unknown⟩ := changes
  cases hknown
  cases tag <;> cases attributes <;> cases children <;> rfl

/-- In a node with exchanged fields an identifier other than its own is found where it was found before,
or nowhere, if the new children avoid it. -/
theorem path?_exchange {id : String} {node : Node} (hid : node.id ≠ id)
    (havoids : changes.Avoids id) :
    Node.path? id (changes.exchange node) =
      if changes.children.isSome then none else Node.path? id node := by
  have hown : (changes.exchange node).id ≠ id := hid
  rw [Node.path?_eq, if_neg hown]
  cases hchildren : changes.children with
  | none =>
      rw [Node.path?_eq id node, if_neg hid, exchange, hchildren]
      rfl
  | some children =>
      refine Node.pathIn?_eq_none_iff.mpr fun child hchild => ?_
      rw [exchange, hchildren] at hchild
      have hmem := Node.node_mem_withoutBlankTexts.mp hchild
      exact Node.path?_eq_none_iff.mpr (havoids children hchildren _ hmem)

/-- Below a node nothing changes where its children are kept. -/
theorem at?_exchange (hkept : changes.children = none) (node : Node) {path : List Nat}
    (hpath : path ≠ []) : (changes.exchange node).at? path = node.at? path := by
  cases path with
  | nil => exact absurd rfl hpath
  | cons position path =>
      rw [Node.at?, Node.at?, exchange, hkept]
      rfl

/-- Exchanging fields other than the children and replacing a subtree below are done in either order.
-/
theorem exchange_replaceAt (hkept : changes.children = none) {node below : Node} {path : List Nat}
    (hpath : path ≠ []) (hbelow : node.at? path = some below) (new : Node) :
    changes.exchange (node.replaceAt new path) = (changes.exchange node).replaceAt new path := by
  cases path with
  | nil => exact absurd rfl hpath
  | cons position path =>
      obtain ⟨child, hchild, _⟩ := Node.at?_cons_eq_some_iff.mp hbelow
      have hsame : (changes.exchange node).children = node.children := by
        rw [exchange, hkept]
        rfl
      have hexchanged : (changes.exchange node).children[position]? = some (.node child) := by
        rw [hsame]
        exact hchild
      rw [Node.replaceAt_cons hchild, Node.replaceAt_cons hexchanged, hsame, exchange, exchange,
        hkept]
      rfl

end Changes

namespace Node

/-- A node is refused on account of its own fields, not of what is below it. -/
theorem isRefused_replaceAt {node new : Node} {path : List Nat} (hpath : path ≠ [])
    (h : (node.replaceAt new path).IsRefused) : node.IsRefused := by
  cases path with
  | nil => exact absurd rfl hpath
  | cons position path =>
      rw [replaceAt] at h
      split at h <;> exact h

/-- A tree is updated at the end of the path to the first node of an identifier: the fields of this
node are exchanged, and they are not refused. -/
structure UpdatedAt (tree : Node) (id : String) (changes : Changes) (path : List Nat)
    (target new : Node) : Prop where
  found : path? id tree = some path
  leads : tree.at? path = some target
  accepted : ¬(changes.exchange target).IsRefused
  result : new = tree.replaceAt (changes.exchange target) path

section Update

variable {tree new target : Node} {id : String} {path : List Nat} {changes : Changes}

theorem UpdatedAt.id_eq (h : UpdatedAt tree id changes path target new) : target.id = id := by
  obtain ⟨found, hfound, hid⟩ := exists_at?_of_path? h.found
  rw [← hid, Option.some.inj (h.leads.symm.trans hfound)]

theorem UpdatedAt.at? (h : UpdatedAt tree id changes path target new) :
    new.at? path = some (changes.exchange target) := by
  rw [h.result]
  exact at?_replaceAt h.leads _

theorem UpdatedAt.update_eq (h : UpdatedAt tree id changes path target new) (hbuilt : tree.Built)
    (hchanges : changes.Regular) : tree.update id changes = .ok new := by
  rw [update_of_path? hbuilt h.found h.leads hchanges.known,
    change_eq (hbuilt.at? h.leads).remade hchanges.known, if_neg h.accepted, h.result]
  rfl

/-- An update leaves a tree in which no node has the identifier as it is, and updates any other tree at
the end of a path. -/
theorem cases_of_update (hbuilt : tree.Built) (hchanges : changes.Regular)
    (h : tree.update id changes = .ok new) :
    path? id tree = none ∧ new = tree ∨
      ∃ path target, UpdatedAt tree id changes path target new := by
  cases hpath : path? id tree with
  | none =>
      rw [update_of_path?_eq_none hpath hchanges.known] at h
      exact .inl ⟨rfl, (Except.ok.inj h).symm⟩
  | some path =>
      obtain ⟨target, htarget, _⟩ := exists_at?_of_path? hpath
      rw [update_of_path? hbuilt hpath htarget hchanges.known,
        change_eq (hbuilt.at? htarget).remade hchanges.known] at h
      split at h
      · cases h
      · next haccepted =>
          exact .inr ⟨path, target, hpath, htarget, haccepted, (Except.ok.inj h).symm⟩

end Update

/-! ## Two updates of one node -/

/-- Two updates of one node are one update, with the fields of both. -/
theorem update_update {tree new : Node} {id : String} (hbuilt : tree.Built) {first second : Changes}
    (hfirst : first.Regular) (hsecond : second.Regular) (h : tree.update id first = .ok new) :
    new.update id second = tree.update id (first.overriddenBy second) := by
  have hboth := hfirst.overriddenBy hsecond
  have hnew := hbuilt.update hfirst.known hfirst.built h
  rcases cases_of_update hbuilt hfirst h with ⟨hpath, rfl⟩ | ⟨path, target, hdone⟩
  · rw [update_of_path?_eq_none hpath hsecond.known, update_of_path?_eq_none hpath hboth.known]
  · have hlater : path? id new = some path := by
      rw [hdone.result]
      exact path?_replaceAt hdone.found hdone.id_eq
    rw [update_of_path? hnew hlater hdone.at? hsecond.known,
      update_of_path? hbuilt hdone.found hdone.leads hboth.known,
      change_eq (hnew.at? hdone.at?).remade hsecond.known,
      change_eq (hbuilt.at? hdone.leads).remade hboth.known, Changes.exchange_exchange]
    split
    · rfl
    · rw [hdone.result]
      exact congrArg Except.ok (replaceAt_replaceAt hdone.leads _ _)

/-! ## Updates of different nodes -/

section Different

variable {tree target below one other : Node} {a b : String} {first second : Changes}
  {path place : List Nat}

/-- An update of another node does not change where a node is found, if the new children avoid its
identifier and do not take its place. -/
theorem path?_update_of_ne (hne : a ≠ b) (hbuilt : tree.Built) (hfirst : first.Regular)
    (havoids : first.Avoids b) (h : tree.update a first = .ok one)
    (hplaces : first.children = none ∨ ∀ path place, path? a tree = some path →
      path? b tree = some place → ¬path <+: place) : path? b one = path? b tree := by
  rcases cases_of_update hbuilt hfirst h with ⟨_, rfl⟩ | ⟨path, target, hdone⟩
  · rfl
  · have hexchanged := Changes.path?_exchange (hdone.id_eq ▸ hne) havoids
    rw [hdone.result]
    cases hchildren : first.children with
    | none =>
        rw [hchildren] at hexchanged
        exact path?_replaceAt_of_eq hdone.leads hexchanged
    | some children =>
        rw [hchildren] at hexchanged
        cases hplace : path? b tree with
        | none =>
            have hbefore := path?_eq_none_of_at? hdone.leads hplace
            rw [path?_replaceAt_of_eq hdone.leads (hexchanged.trans hbefore.symm), hplace]
        | some place =>
            have haway := (hplaces.resolve_left (by simp [hchildren])) path place hdone.found hplace
            exact path?_replaceAt_of_apart hdone.leads hplace haway hexchanged

/-- Two nodes apart from each other are updated in either order. -/
theorem UpdatedAt.comm_of_apart (h : UpdatedAt tree a first path target one)
    (h' : UpdatedAt tree b second place below other) (hapart : Apart path place)
    (hlater : path? b one = some place) (hlater' : path? a other = some path) :
    ∃ both, UpdatedAt one b second place below both ∧ UpdatedAt other a first path target both := by
  refine ⟨_, ⟨hlater, ?_, h'.accepted, rfl⟩, hlater', ?_, h.accepted, ?_⟩
  · rw [h.result, at?_replaceAt_of_apart h.leads _ hapart, h'.leads]
  · rw [h'.result, at?_replaceAt_of_apart h'.leads _ hapart.symm, h.leads]
  · rw [h.result, h'.result, replaceAt_comm h.leads h'.leads hapart]

/-- A node and a node below it are updated in either order, if the upper one keeps its children. -/
theorem UpdatedAt.comm_of_below (hkept : first.children = none) (hbelow : place ≠ [])
    (h : UpdatedAt tree a first path target one)
    (h' : UpdatedAt tree b second (path ++ place) below other)
    (hlater : path? b one = some (path ++ place)) (hlater' : path? a other = some path) :
    ∃ both target', UpdatedAt one b second (path ++ place) below both ∧
      UpdatedAt other a first path target' both := by
  have hinside : target.at? place = some below := by
    have hwhole := h'.leads
    rw [at?_append, h.leads] at hwhole
    exact hwhole
  have hother : other = tree.replaceAt (target.replaceAt (second.exchange below) place) path := by
    rw [h'.result, replaceAt_append h.leads]
  have hexchanged : first.exchange (target.replaceAt (second.exchange below) place) =
      (first.exchange target).replaceAt (second.exchange below) place :=
    Changes.exchange_replaceAt hkept hbelow hinside _
  refine ⟨_, target.replaceAt (second.exchange below) place, ⟨hlater, ?_, h'.accepted, rfl⟩, hlater',
    ?_, ?_, ?_⟩
  · rw [at?_append, h.at?, Option.bind_some, Changes.at?_exchange hkept target hbelow, hinside]
  · rw [hother]
    exact at?_replaceAt h.leads _
  · rw [hexchanged]
    exact fun hrefused => h.accepted (isRefused_replaceAt hbelow hrefused)
  · rw [replaceAt_append h.at?, hother, replaceAt_replaceAt h.leads, hexchanged, h.result,
      replaceAt_replaceAt h.leads]

/-- Where one of two paths leads on from the other, the upper node keeps its children; then both nodes
are updated in either order. -/
theorem UpdatedAt.comm_of_prefix (hne : a ≠ b) (hkept : first.children = none)
    (hfront : path <+: place) (h : UpdatedAt tree a first path target one)
    (h' : UpdatedAt tree b second place below other) (hlater : path? b one = some place)
    (hlater' : path? a other = some path) :
    ∃ both target', UpdatedAt one b second place below both ∧
      UpdatedAt other a first path target' both := by
  obtain ⟨rest, rfl⟩ := hfront
  refine UpdatedAt.comm_of_below hkept (fun hrest => hne ?_) h h' hlater hlater'
  have hsame := h'.leads
  rw [hrest, List.append_nil, h.leads] at hsame
  rw [← h.id_eq, ← h'.id_eq, Option.some.inj hsame]

/-- Two nodes are updated in either order, if both keep their children, or if neither of them is inside
the other and no update brings a node with the identifier that the other one searches for. -/
theorem exists_update_comm (hne : a ≠ b) (hbuilt : tree.Built) (hfirst : first.Regular)
    (hsecond : second.Regular) (h : tree.update a first = .ok one)
    (h' : tree.update b second = .ok other)
    (hcases : first.children = none ∧ second.children = none ∨
      first.Avoids b ∧ second.Avoids a ∧ ∀ path place, path? a tree = some path →
        path? b tree = some place → Apart path place) :
    ∃ both, one.update b second = .ok both ∧ other.update a first = .ok both := by
  have havoids : first.Avoids b ∧ second.Avoids a := by
    rcases hcases with ⟨hkept, hkept'⟩ | ⟨havoids, havoids', _⟩
    · exact ⟨fun children hchildren => by simp [hkept] at hchildren,
        fun children hchildren => by simp [hkept'] at hchildren⟩
    · exact ⟨havoids, havoids'⟩
  have hplaces := hcases.imp_right fun hcase => hcase.2.2
  have hlater : path? b one = path? b tree :=
    path?_update_of_ne hne hbuilt hfirst havoids.1 h
      (hplaces.imp And.left fun hapart path place hpath hplace =>
        (hapart path place hpath hplace).1)
  have hlater' : path? a other = path? a tree :=
    path?_update_of_ne hne.symm hbuilt hsecond havoids.2 h'
      (hplaces.imp And.right fun hapart place path hplace hpath =>
        (hapart path place hpath hplace).2)
  have hone := hbuilt.update hfirst.known hfirst.built h
  have hother := hbuilt.update hsecond.known hsecond.built h'
  rcases cases_of_update hbuilt hfirst h with ⟨hnone, rfl⟩ | ⟨path, target, hdone⟩
  · exact ⟨other, h', update_of_path?_eq_none (hlater'.trans hnone) hfirst.known⟩
  · rcases cases_of_update hbuilt hsecond h' with ⟨hnone, rfl⟩ | ⟨place, below, hdone'⟩
    · exact ⟨one, update_of_path?_eq_none (hlater.trans hnone) hsecond.known, h⟩
    · rw [hdone'.found] at hlater
      rw [hdone.found] at hlater'
      -- Only nodes that keep their children are updated above or below each other.
      by_cases hfront : path <+: place
      · obtain ⟨hkept, _⟩ := hplaces.resolve_right fun hapart =>
          (hapart path place hdone.found hdone'.found).1 hfront
        obtain ⟨both, _, hnext, hnext'⟩ :=
          hdone.comm_of_prefix hne hkept hfront hdone' hlater hlater'
        exact ⟨both, hnext.update_eq hone hsecond, hnext'.update_eq hother hfirst⟩
      · by_cases hback : place <+: path
        · obtain ⟨_, hkept⟩ := hplaces.resolve_right fun hapart =>
            (hapart path place hdone.found hdone'.found).2 hback
          obtain ⟨both, _, hnext, hnext'⟩ :=
            hdone'.comm_of_prefix hne.symm hkept hback hdone hlater' hlater
          exact ⟨both, hnext'.update_eq hone hsecond, hnext.update_eq hother hfirst⟩
        · obtain ⟨both, hnext, hnext'⟩ :=
            hdone.comm_of_apart hdone' ⟨hfront, hback⟩ hlater hlater'
          exact ⟨both, hnext.update_eq hone hsecond, hnext'.update_eq hother hfirst⟩

/-- A second update of a node gives what one update with the fields of both gives, and so nothing new if
the fields are the same.  Updates of two nodes are made in either order, if both keep the children of
their nodes, or if neither node is inside the other and no new child has, at any depth, the identifier
that the other update searches for. -/
theorem update_again_or_elsewhere (hbuilt : tree.Built) (hfirst : first.Regular)
    (hsecond : second.Regular) (h : tree.update a first = .ok one) :
    one.update a second = tree.update a (first.overriddenBy second) ∧
      one.update a first = .ok one ∧
      ∀ b other, a ≠ b → tree.update b second = .ok other →
        (first.children = none ∧ second.children = none ∨
          first.Avoids b ∧ second.Avoids a ∧ ∀ path place, path? a tree = some path →
            path? b tree = some place → Apart path place) →
        ∃ both, one.update b second = .ok both ∧ other.update a first = .ok both := by
  refine ⟨update_update hbuilt hfirst hsecond h, ?_, fun b other hne hother hcases => ?_⟩
  · rw [update_update hbuilt hfirst hfirst h, Changes.overriddenBy_self first hfirst.known, h]
  · exact exists_update_comm hne hbuilt hfirst hsecond h hother hcases

end Different

/-- A list above one of two elements of one identifier, and a note beside it. -/
def shelf : Node :=
  ⟨.named "div", [], [.text "shelf",
    .node ⟨.named "ul", [], [.node ⟨.named "li", [], [.text "first"], "item"⟩], "list"⟩,
    .node ⟨.named "li", [], [], "item"⟩, .node ⟨.named "p", [], [.text "old"], "note"⟩], "shelf"⟩

theorem built_shelf : shelf.Built := by decide

/-- Another tag. -/
def toOrdered : Changes := { tag := some (.named "ol") }

/-- Other attributes. -/
def toKeyed : Changes := { attributes := some [("key", .string "b")] }

/-- Other children, with a node and a blank text among them. -/
def toFilled : Changes := { children := some [.node ⟨.named "li", [], [], "new"⟩, .text " "] }

theorem regular_toOrdered : toOrdered.Regular := ⟨rfl, nofun⟩

theorem regular_toKeyed : toKeyed.Regular := ⟨rfl, nofun⟩

theorem regular_toFilled : toFilled.Regular := by
  refine ⟨rfl, fun children hchildren child hchild => ?_⟩
  cases hchildren
  have hnode : child = ⟨.named "li", [], [], "new"⟩ := by simpa using hchild
  rw [hnode]
  decide

theorem avoids_toFilled {id : String} (h : id ≠ "new") : toFilled.Avoids id := by
  intro children hchildren content hcontent
  cases hchildren
  simp only [List.mem_cons, List.not_mem_nil, or_false] at hcontent
  rcases hcontent with rfl | rfl <;> simp [Content.ids, Content.nodes, nodes, nodesIn, h]

/-- A list and the first of its items are updated in either order, as both keep their children; so are a
list and a note beside it that are given new ones. -/
theorem update_shelf :
    (∃ one other both, shelf.update "list" toOrdered = .ok one ∧
        shelf.update "item" toKeyed = .ok other ∧
        one.update "list" toKeyed = shelf.update "list" (toOrdered.overriddenBy toKeyed) ∧
        one.update "item" toKeyed = .ok both ∧ other.update "list" toOrdered = .ok both) ∧
      ∃ one other both, shelf.update "list" toFilled = .ok one ∧
        shelf.update "note" toFilled = .ok other ∧ one.update "note" toFilled = .ok both ∧
        other.update "list" toFilled = .ok both := by
  have hlist : path? "list" shelf = some [1] := by decide
  have hnote : path? "note" shelf = some [3] := by decide
  obtain ⟨ordered, hordered⟩ : ∃ one, shelf.update "list" toOrdered = .ok one := ⟨_, rfl⟩
  obtain ⟨keyed, hkeyed⟩ : ∃ other, shelf.update "item" toKeyed = .ok other := ⟨_, rfl⟩
  obtain ⟨filled, hfilled⟩ : ∃ one, shelf.update "list" toFilled = .ok one := ⟨_, rfl⟩
  obtain ⟨noted, hnoted⟩ : ∃ other, shelf.update "note" toFilled = .ok other := ⟨_, rfl⟩
  obtain ⟨hagain, _, helsewhere⟩ :=
    update_again_or_elsewhere built_shelf regular_toOrdered regular_toKeyed hordered
  obtain ⟨both, hboth, hboth'⟩ := helsewhere "item" keyed (by decide) hkeyed (.inl ⟨rfl, rfl⟩)
  obtain ⟨_, _, hbeside⟩ :=
    update_again_or_elsewhere built_shelf regular_toFilled regular_toFilled hfilled
  obtain ⟨beside, hone, hother⟩ := hbeside "note" noted (by decide) hnoted
    (.inr ⟨avoids_toFilled (by decide), avoids_toFilled (by decide), fun path place hpath hplace => by
      rw [hlist] at hpath
      rw [hnote] at hplace
      cases hpath
      cases hplace
      exact ⟨by decide, by decide⟩⟩)
  exact ⟨⟨ordered, keyed, both, hordered, hkeyed, hagain, hboth, hboth'⟩,
    filled, noted, beside, hfilled, hnoted, hone, hother⟩

end Node

end EditableMarkup
