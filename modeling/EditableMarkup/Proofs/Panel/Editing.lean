import EditableMarkup.Proofs.Panel.Properties

/-!
# Setting properties of a tree

The panel sets a property of the first node with an identifier.  Reading what
was set gives it back, and setting what was read changes nothing.
-/

namespace EditableMarkup.Panel

/-! ## Setting a property of a tree -/

/-- A property is set by an exchange of fields of the node to which the search for the identifier
leads. -/
theorem exists_exchange_of_setProperty {tree node new : Node} (hbuilt : tree.Built)
    {id key : String} {value : Plain} {path : List Nat} (hpath : Node.path? id tree = some path)
    (hnode : tree.at? path = some node) (h : setProperty tree id key value = .ok new) :
    ∃ changes, changesFor node key value = .ok changes ∧
      new = tree.replaceAt (changes.exchange node) path := by
  have hfind : tree.find? id = some node := by rw [Node.find?_eq, hpath, Option.bind_some, hnode]
  rw [setProperty, hfind] at h
  obtain ⟨changes, hchanges, h⟩ := exists_of_bind_eq_ok h
  have hknown := (addsNoNode_of_changesFor hchanges).known
  rw [Node.update_of_path? hbuilt hpath hnode hknown,
    Node.change_eq (hbuilt.at? hnode).remade hknown] at h
  refine ⟨changes, hchanges, ?_⟩
  split at h
  · cases h
  · cases h
    rfl

/-- Nothing changes where the fields of a node are exchanged for themselves. -/
theorem setProperty_eq_self {tree node : Node} (hbuilt : tree.Built) {id key : String}
    {value : Plain} (hfind : tree.find? id = some node) {changes : Changes}
    (hchanges : changesFor node key value = .ok changes) (hsame : changes.exchange node = node) :
    setProperty tree id key value = .ok tree := by
  rw [Node.find?_eq] at hfind
  obtain ⟨path, hpath, hnode⟩ := Option.bind_eq_some_iff.mp hfind
  have hremade := (hbuilt.at? hnode).remade
  have hknown := (addsNoNode_of_changesFor hchanges).known
  have haccepted : ¬ node.IsRefused := fun hrefused =>
    hrefused.2 ((Node.remade_iff.mp hremade).1 hrefused.1)
  rw [setProperty, Node.find?_eq, hpath, Option.bind_some, hnode]
  simp only [hchanges, bind, Except.bind]
  rw [Node.update_of_path? hbuilt hpath hnode hknown, Node.change_eq hremade hknown, hsame,
    if_neg haccepted]
  exact congrArg Except.ok (Node.replaceAt_self hnode)

/-! ## What is set is shown -/

/-- A node in which a property other than the text content was set: the property is shown once, with
the value, and whatever is not overwritten is shown as before. -/
structure Shows (node changed : Node) (key : String) (value : Plain) : Prop where
  tag : changed.tag = node.tag
  children : changed.children = node.children
  once : ∃ kind, (properties changed).filter (fun property => property.key == key) =
    [{ key, value, kind }]
  others : (properties changed).filter (fun property => !(property.key == key)) =
    (properties node).filter fun property => !overwrites node key property

/-- A node in which the text content was set: a text is its only child and its last property. -/
structure ShowsText (node changed : Node) (text : String) : Prop where
  tag : changed.tag = node.tag
  attributes : changed.attributes = node.attributes
  children : changed.children = [.text text]
  last : properties changed =
    attributesShown node.attributes ++ [{ key := textKey, value := .string text, kind := .text }]

/-- A scalar that is set under a key of its own is shown. -/
theorem shows_exchange {node : Node} (hproper : (Value.mapping node.attributes).Proper)
    (hdots : ∀ entry ∈ node.attributes, '.' ∉ entry.1.toList) {key : String} {plain : Plain}
    (hscalar : IsScalar plain) (hstyle : key ≠ styleKey) (htext : key ≠ textKey)
    {changes : Changes} (h : changesFor node key plain = .ok changes) :
    Shows node (changes.exchange node) key plain := by
  rw [changesFor_eq htext] at h
  cases hvalue : valueOf plain with
  | error fault =>
      rw [hvalue] at h
      cases h
  | ok value =>
      rw [hvalue] at h
      cases h
      have hshown := (valueOf_eq_ok_iff hscalar).mp hvalue
      cases hname : styleName? key with
      | none =>
          obtain ⟨honce, hothers⟩ := @properties_written_attribute node
            (Changes.exchange { attributes := some (written node key value) } node)
            key value plain hproper hname hstyle htext hshown rfl rfl
          exact ⟨rfl, rfl, honce, hothers⟩
      | some name =>
          obtain rfl := styleName?_eq_some_iff.mp hname
          obtain ⟨honce, hothers⟩ := @properties_written_style node
            (Changes.exchange { attributes := some (written node (stylePrefix ++ name) value) } node)
            value plain hproper hdots name hshown rfl rfl
          exact ⟨rfl, rfl, honce, hothers⟩

/-- A text content that is not blank is shown. -/
theorem showsText_exchange {node : Node} {value : Plain} (hblank : Text.isBlankText value.text = false)
    {changes : Changes} (h : changesFor node textKey value = .ok changes) :
    ShowsText node (changes.exchange node) value.text := by
  obtain rfl := changesFor_textKey h
  have hchildren : Node.withoutBlankTexts [.text value.text] = [.text value.text] :=
    Node.withoutBlankTexts_of_forall (by simpa [Content.isBlankText] using hblank)
  have hlast : (Changes.exchange { children := some [.text value.text] } node).children =
      [.text value.text] := hchildren
  refine ⟨rfl, rfl, hlast, ?_⟩
  rw [properties, hlast]
  rfl

/-- Only the text content is set among children. -/
theorem children_exchange {node : Node} {key : String} {value : Plain} (htext : key ≠ textKey)
    {changes : Changes} (h : changesFor node key value = .ok changes) :
    (changes.exchange node).children = node.children := by
  rw [changesFor_eq htext] at h
  cases hvalue : valueOf value with
  | error fault =>
      rw [hvalue] at h
      cases h
  | ok _ =>
      rw [hvalue] at h
      cases h
      rfl

/-- A property that is set to a scalar is found with this value at the node, which the identifier
still stands for.  All other properties of the node, and all other nodes, are as before; only a text
content takes the place of what was below the node. -/
theorem shows_setProperty {tree node new : Node} (hbuilt : tree.Built) (hproper : tree.Proper)
    {id key : String} {value : Plain} (hfind : tree.find? id = some node)
    (hdots : ∀ entry ∈ node.attributes, '.' ∉ entry.1.toList) (hscalar : IsScalar value)
    (h : setProperty tree id key value = .ok new) :
    ∃ path changed, Node.path? id tree = some path ∧ tree.at? path = some node ∧
      new.at? path = some changed ∧ new.find? id = some changed ∧
      (key ≠ styleKey → key ≠ textKey → Shows node changed key value) ∧
      (key = textKey → Text.isBlankText value.text = false → ShowsText node changed value.text) ∧
      ∀ other, other ≠ path → (key = textKey → ¬path <+: other) →
        (new.at? other).map Node.face = (tree.at? other).map Node.face := by
  rw [Node.find?_eq] at hfind
  obtain ⟨path, hpath, hnode⟩ := Option.bind_eq_some_iff.mp hfind
  obtain ⟨changes, hchanges, rfl⟩ := exists_exchange_of_setProperty hbuilt hpath hnode h
  have hnew := Node.at?_replaceAt hnode (changes.exchange node)
  obtain ⟨_, htarget, hid⟩ := Node.exists_at?_of_path? hpath
  obtain rfl := Option.some.inj (hnode.symm.trans htarget)
  have hattributes := (Node.proper_iff.mp (hproper.at? hnode)).1
  refine ⟨path, changes.exchange node, hpath, hnode, hnew, ?_, fun hstyle htext => ?_,
    fun htext hblank => ?_, fun other hother htext => ?_⟩
  · rw [Node.find?_eq, @Node.path?_replaceAt id tree (changes.exchange node) path hpath hid]
    exact hnew
  · exact shows_exchange hattributes hdots hscalar hstyle htext hchanges
  · rw [htext] at hchanges
    exact showsText_exchange hblank hchanges
  · by_cases hbelow : path <+: other
    · -- Below the node everything hangs on its children, which only the text content exchanges.
      obtain ⟨rest, rfl⟩ := hbelow
      have hkept := children_exchange (fun hkey => htext hkey (List.prefix_append ..)) hchanges
      cases rest with
      | nil => exact absurd (List.append_nil path) hother
      | cons position rest =>
          rw [Node.at?_append, Node.at?_append, hnew, hnode, Option.bind_some, Option.bind_some,
            Node.at?, Node.at?, hkept]
    · exact Node.face_at?_replaceAt hnode _ hbelow

/-! ## What is shown is set -/

/-- A scalar is what an attribute is shown as, unless it is an infinite or undefined number. -/
theorem isScalar_of_scalar? {value : Value} {plain : Plain} (h : scalar? value = some plain)
    (hfinite : ∀ number, plain = .number number → number.isFinite = true) : IsScalar plain := by
  cases value with
  | string text | boolean truth =>
      cases h
      trivial
  | number number =>
      cases h
      exact hfinite number rfl
  | mapping entries | expression source => cases h

/-- A property that is set to what it is shown as leaves the tree as it is; so does the text content,
if the text is the only child of the node. -/
theorem setProperty_of_mem_properties {tree node : Node} (hbuilt : tree.Built)
    (hproper : tree.Proper) {id : String} (hfind : tree.find? id = some node)
    (hdots : ∀ entry ∈ node.attributes, '.' ∉ entry.1.toList) {property : Property}
    (hproperty : property ∈ properties node)
    (hfinite : ∀ number, property.value = .number number → number.isFinite = true) :
    (property.key ≠ textKey → setProperty tree id property.key property.value = .ok tree) ∧
      (property.key = textKey → (∃ text, node.children = [.text text]) →
        (∀ entry ∈ node.attributes, entry.1 ≠ textKey) →
          setProperty tree id property.key property.value = .ok tree) := by
  have hfind' := hfind
  rw [Node.find?_eq] at hfind'
  obtain ⟨path, _, hnode⟩ := Option.bind_eq_some_iff.mp hfind'
  have hattributes := (Node.proper_iff.mp (hproper.at? hnode)).1
  rcases List.mem_append.mp hproperty with hshown | hlast
  · obtain ⟨value, hvalue, hwritten⟩ := exists_written_of_mem hattributes hdots hshown
    have hscalar := isScalar_of_scalar? hvalue hfinite
    refine ⟨fun htext => ?_, fun htext _ hnames => ?_⟩
    · have hchanges : changesFor node property.key property.value =
          .ok { attributes := some (written node property.key value) } := by
        rw [changesFor_eq htext, (valueOf_eq_ok_iff hscalar).mpr hvalue]
        rfl
      refine setProperty_eq_self hbuilt hfind hchanges ?_
      rw [hwritten]
      cases node
      rfl
    · -- No attribute is shown under the key of the text content.
      obtain ⟨entry, hentry, hinside⟩ := List.mem_flatMap.mp hshown
      rcases cases_of_mem_attributeProperties hinside with ⟨hkey, _⟩ | ⟨_, entries, _, hinner⟩
      · exact absurd (hkey.symm.trans htext) (hnames entry hentry)
      · obtain ⟨inner, _, hkey, _⟩ := exists_name_of_mem_styleProperties hinner
        have hdot := dot_mem_stylePrefix_append inner.1
        rw [← hkey, htext] at hdot
        exact absurd hdot (by decide)
  · refine ⟨fun htext => absurd (key_of_mem_textShown hlast) htext, fun htext htexts _ => ?_⟩
    obtain ⟨text, hchildren⟩ := htexts
    rw [hchildren] at hlast
    obtain rfl := List.mem_singleton.mp hlast
    have hkept : Node.withoutBlankTexts [.text text] = [.text text] := by
      refine Node.withoutBlankTexts_of_forall ?_
      rw [← hchildren]
      exact (Node.remade_iff.mp (hbuilt.at? hnode).remade).2
    refine @setProperty_eq_self tree node hbuilt id textKey (.string text) hfind
      { children := some [.text text] } rfl ?_
    cases node
    rw [Changes.exchange, Option.map_some, hkept, ← hchildren]
    rfl

/-- An element with properties of all kinds. -/
def card : Node :=
  ⟨.named "li", [("title", .string "a"), ("style", .mapping [("width", .number (.integer 10)),
    ("color", .string "red")]), ("hidden", .boolean false), ("onClick", .expression "go")],
    [.text "first"], "card"⟩

/-- A list with two elements of one identifier. -/
def cards : Node :=
  ⟨.named "ul", [], [.text "items", .node card, .node ⟨.named "li", [], [], "card"⟩], "list"⟩

theorem built_cards : cards.Built := by decide

theorem proper_cards : cards.Proper := by
  simp [cards, card, Node.Proper, Node.ChildrenProper, Value.Proper, Value.AllProper, Entries.Distinct]

/-- A style entry and the text content of the first element are set and shown. -/
theorem shows_card :
    (∃ new changed, setProperty cards "card" "style.color" (.string "blue") = .ok new ∧
        new.find? "card" = some changed ∧ Shows card changed "style.color" (.string "blue")) ∧
      ∃ new changed, setProperty cards "card" textKey (.boolean true) = .ok new ∧
        new.find? "card" = some changed ∧ ShowsText card changed "True" ∧
        (new.at? [2]).map Node.face = (cards.at? [2]).map Node.face := by
  have hfind : cards.find? "card" = some card := rfl
  have hdots : ∀ entry ∈ card.attributes, '.' ∉ entry.1.toList := by decide
  obtain ⟨new, hnew⟩ : ∃ new, setProperty cards "card" "style.color" (.string "blue") = .ok new :=
    ⟨_, rfl⟩
  obtain ⟨new', hnew'⟩ : ∃ new, setProperty cards "card" textKey (.boolean true) = .ok new :=
    ⟨_, rfl⟩
  obtain ⟨_, changed, _, _, _, hchanged, hshows, _⟩ := shows_setProperty built_cards proper_cards
    hfind hdots (show IsScalar (.string "blue") from trivial) hnew
  obtain ⟨path, changed', hpath, _, _, hchanged', _, htext, hothers⟩ := shows_setProperty built_cards
    proper_cards hfind hdots (show IsScalar (.boolean true) from trivial) hnew'
  have hsecond : path = [1] := (Option.some.inj hpath).symm
  refine ⟨⟨new, changed, hnew, hchanged, hshows (by decide) (by decide)⟩,
    new', changed', hnew', hchanged', htext rfl (by decide), hothers [2] ?_ fun _ => ?_⟩
  · rw [hsecond]
    decide
  · rw [hsecond]
    decide

/-- All properties of the first element but an expression are set to what they are. -/
theorem setProperty_card :
    properties card = [{ key := "title", value := .string "a", kind := .text },
        { key := "style.width", value := .number (.integer 10), kind := .number },
        { key := "style.color", value := .string "red", kind := .color },
        { key := "hidden", value := .boolean false, kind := .boolean },
        { key := textKey, value := .string "first", kind := .text }] ∧
      ∀ property ∈ properties card,
        setProperty cards "card" property.key property.value = .ok cards := by
  have hshown : properties card = [{ key := "title", value := .string "a", kind := .text },
      { key := "style.width", value := .number (.integer 10), kind := .number },
      { key := "style.color", value := .string "red", kind := .color },
      { key := "hidden", value := .boolean false, kind := .boolean },
      { key := textKey, value := .string "first", kind := .text }] := rfl
  refine ⟨hshown, fun property hproperty => ?_⟩
  have hfinite : ∀ number, property.value = .number number → number.isFinite = true := by
    intro number hnumber
    rw [hshown] at hproperty
    simp only [List.mem_cons, List.not_mem_nil, or_false] at hproperty
    rcases hproperty with rfl | rfl | rfl | rfl | rfl <;> cases hnumber
    rfl
  obtain ⟨hattribute, htext⟩ := @setProperty_of_mem_properties cards card built_cards proper_cards
    "card" rfl (by decide) property hproperty hfinite
  by_cases hkey : property.key = textKey
  · exact htext hkey ⟨"first", rfl⟩ (by decide)
  · exact hattribute hkey

end EditableMarkup.Panel
