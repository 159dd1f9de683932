import EditableMarkup.Proofs.Tree.Entries
import EditableMarkup.Proofs.Tree.Labels

/-!
# Properties that are shown and set

The panel shows a node as a list of properties and sets them one at a time.  A
property that is set to the value that it shows leaves the tree as it is.  A
property that is set to another value is shown once, with this value, and all
other properties, and all other nodes, are as before.
-/

namespace EditableMarkup.Panel

/-! ## Scalars -/

/-- A string, a truth value or a finite number. -/
def IsScalar : Plain → Prop
  | .string _ => True
  | .boolean _ => True
  | .number number => number.isFinite = true
  | _ => False

/-- A scalar is set as the one value that is shown as it. -/
theorem valueOf_eq_ok_iff {plain : Plain} (h : IsScalar plain) {value : Value} :
    valueOf plain = .ok value ↔ scalar? value = some plain := by
  cases plain with
  | string text => cases value <;> simp [valueOf, scalar?, eq_comm]
  | boolean truth => cases value <;> simp [valueOf, scalar?, eq_comm]
  | number number =>
      have hfinite : number.isFinite = true := h
      cases value <;> simp [valueOf, finiteNumber, hfinite, scalar?, eq_comm]
  | _ => cases h

/-! ## Keys -/

/-- A key stands for a style entry, if the name of the entry is behind the prefix. -/
theorem styleName?_eq_some_iff {key name : String} :
    styleName? key = some name ↔ key = stylePrefix ++ name := by
  rw [styleName?]
  constructor
  · intro h
    split at h
    · next hfront =>
        obtain ⟨rest, hrest⟩ := List.isPrefixOf_iff_prefix.mp hfront
        have hdrop : key.toList.drop stylePrefix.length = rest := by
          rw [← hrest, ← String.length_toList, List.drop_left]
        cases h
        rw [hdrop]
        refine String.toList_inj.mp ?_
        rw [String.toList_append, String.toList_ofList, hrest]
    · cases h
  · rintro rfl
    have hfront : stylePrefix.toList.isPrefixOf (stylePrefix ++ name).toList = true := by
      rw [List.isPrefixOf_iff_prefix, String.toList_append]
      exact List.prefix_append ..
    rw [if_pos hfront, String.toList_append, ← String.length_toList, List.drop_left,
      String.ofList_toList]

theorem dot_mem_stylePrefix_append (name : String) : '.' ∈ (stylePrefix ++ name).toList := by
  rw [String.toList_append]
  exact List.mem_append_left _ (by decide)

/-- A key without a dot stands for no style entry. -/
theorem styleName?_of_no_dot {key : String} (h : '.' ∉ key.toList) : styleName? key = none := by
  cases hname : styleName? key with
  | none => rfl
  | some name =>
      rw [styleName?_eq_some_iff.mp hname] at h
      exact absurd (dot_mem_stylePrefix_append name) h

/-! ## What is set -/

/-- The attributes of a node in which the property of a key is set to a value. -/
def written (node : Node) (key : String) (value : Value) : Entries Value :=
  match styleName? key with
  | some name => node.attributes.set styleKey (.mapping ((styleEntries node).set name value))
  | none => node.attributes.set key value

/-- Whatever has another key than the text content is set among the attributes. -/
theorem changesFor_eq {key : String} (htext : key ≠ textKey) (node : Node) (plain : Plain) :
    changesFor node key plain =
      (fun value => { attributes := some (written node key value) }) <$> valueOf plain := by
  unfold changesFor written
  cases styleName? key with
  | some name => cases valueOf plain <;> rfl
  | none =>
      dsimp only
      rw [if_neg htext]
      cases valueOf plain <;> rfl

/-- The text content is set in place of all children. -/
theorem changesFor_textKey {node : Node} {value : Plain} {changes : Changes}
    (h : changesFor node textKey value = .ok changes) :
    changes = { children := some [.text value.text] } := by
  have hname : styleName? textKey = none := by decide
  rw [changesFor, hname] at h
  simp only [if_true] at h
  split at h
  · cases h
    rfl
  · cases h

/-! ## What is shown -/

/-- The properties of attributes. -/
abbrev attributesShown (attributes : Entries Value) : List Property :=
  attributes.flatMap fun entry => attributeProperties entry.1 entry.2

/-- The properties of the first text among children. -/
abbrev textShown (children : List (Content Node)) : List Property :=
  ((firstText? children).map fun text =>
    { key := textKey, value := .string text, kind := .text }).toList

theorem key_of_mem_textShown {children : List (Content Node)} {property : Property}
    (h : property ∈ textShown children) : property.key = textKey := by
  obtain ⟨text, _, rfl⟩ := Option.map_eq_some_iff.mp (Option.mem_toList.mp h)
  rfl

/-- The properties of the entries of a style have the names of these entries behind the prefix. -/
theorem exists_name_of_mem_styleProperties {entries : Entries Value} {property : Property}
    (h : property ∈ styleProperties entries) :
    ∃ entry ∈ entries, property.key = stylePrefix ++ entry.1 ∧
      scalar? entry.2 = some property.value := by
  obtain ⟨entry, hentry, hproperty⟩ := List.mem_filterMap.mp h
  obtain ⟨plain, hplain, rfl⟩ := Option.map_eq_some_iff.mp hproperty
  exact ⟨entry, hentry, rfl, hplain⟩

/-- The property of an attribute has the name of the attribute as its key and its value, or the
attribute is a style and the property is one of its entries. -/
theorem cases_of_mem_attributeProperties {key : String} {value : Value} {property : Property}
    (h : property ∈ attributeProperties key value) :
    property.key = key ∧ scalar? value = some property.value ∨
      key = styleKey ∧ ∃ entries, value = .mapping entries ∧ property ∈ styleProperties entries := by
  cases value with
  | mapping entries =>
      rw [attributeProperties] at h
      split at h
      · next hstyle => exact Or.inr ⟨hstyle, entries, rfl, h⟩
      · cases h
  | expression source => cases h
  | string text | number number | boolean truth =>
      obtain rfl := List.mem_singleton.mp h
      exact Or.inl ⟨rfl, rfl⟩

/-- A scalar attribute is shown as one property. -/
theorem attributeProperties_of_scalar? {key : String} {value : Value} {plain : Plain}
    (h : scalar? value = some plain) :
    attributeProperties key value = [{ key, value := plain, kind := valueKind value }] := by
  cases value with
  | string text | number number | boolean truth =>
      cases h
      rfl
  | mapping entries | expression source => cases h

/-- A scalar style entry is shown as one property. -/
theorem styleProperties_singleton {name : String} {value : Value} {plain : Plain}
    (h : scalar? value = some plain) :
    styleProperties [(name, value)] =
      [{ key := stylePrefix ++ name, value := plain, kind := styleKind name value }] := by
  rw [styleProperties, List.filterMap_cons, h]
  rfl

/-! ## Setting what is shown -/

/-- A property that is shown has the value of its attribute, or of its style entry, so that it is
written as it stands. -/
theorem exists_written_of_mem {node : Node} (hproper : (Value.mapping node.attributes).Proper)
    (hdots : ∀ entry ∈ node.attributes, '.' ∉ entry.1.toList) {property : Property}
    (hproperty : property ∈ attributesShown node.attributes) :
    ∃ value, scalar? value = some property.value ∧
      written node property.key value = node.attributes := by
  obtain ⟨⟨key, value⟩, hentry, hproperty⟩ := List.mem_flatMap.mp hproperty
  have hfound : node.attributes.find? key = some value := Entries.find?_eq_some hproper.1 hentry
  rcases cases_of_mem_attributeProperties hproperty with ⟨hkey, hvalue⟩ | ⟨rfl, entries, rfl, hinner⟩
  · refine ⟨value, hvalue, ?_⟩
    have hname : styleName? property.key = none := styleName?_of_no_dot (hkey ▸ hdots _ hentry)
    unfold written
    rw [hname, hkey]
    exact Entries.set_of_find? hfound
  · obtain ⟨⟨name, value⟩, hmem, hkey, hvalue⟩ := exists_name_of_mem_styleProperties hinner
    refine ⟨value, hvalue, ?_⟩
    have hdistinct : (Value.mapping entries).Proper := hproper.entry hentry
    have hset : Entries.set name value entries = entries :=
      Entries.set_of_find? (Entries.find?_eq_some hdistinct.1 hmem)
    have hstyle : styleEntries node = entries := by rw [styleEntries, hfound]
    unfold written
    rw [styleName?_eq_some_iff.mpr hkey, hstyle]
    simp only [hset]
    exact Entries.set_of_find? hfound

/-! ## Showing what is set -/

/-- The style of a node is a mapping. -/
def hasStyleMapping (node : Node) : Bool :=
  match node.attributes.find? styleKey with
  | some (.mapping _) => true
  | _ => false

/-- A property is lost when another one is set: it has the same key, or it is a style that is no
mapping and makes room for a style entry. -/
def overwrites (node : Node) (key : String) (property : Property) : Bool :=
  property.key == key ||
    ((styleName? key).isSome && !hasStyleMapping node && property.key == styleKey)

/-- A test that all elements around a part of a list pass selects among this part only. -/
theorem filter_around {before middle behind : List Property} {test : Property → Bool}
    (hbefore : ∀ property ∈ before, test property = true)
    (hbehind : ∀ property ∈ behind, test property = true) :
    (before ++ middle ++ behind).filter test = before ++ middle.filter test ++ behind ∧
      (before ++ middle ++ behind).filter (fun property => !test property) =
        middle.filter fun property => !test property := by
  have hnone {shown : List Property} (h : ∀ property ∈ shown, test property = true) :
      shown.filter (fun property => !test property) = [] :=
    List.filter_eq_nil_iff.mpr fun property hproperty => by simp [h property hproperty]
  constructor
  · rw [List.filter_append, List.filter_append, List.filter_eq_self.mpr hbefore,
      List.filter_eq_self.mpr hbehind]
  · rw [List.filter_append, List.filter_append, hnone hbefore, hnone hbehind, List.nil_append,
      List.append_nil]

/-- A test that all properties beside some attributes pass selects among the properties of these
attributes only. -/
theorem filter_properties {node : Node} {before entries behind : Entries Value}
    (hattributes : node.attributes = before ++ entries ++ behind) {test : Property → Bool}
    (hothers : ∀ entry ∈ before ++ behind,
      ∀ property ∈ attributeProperties entry.1 entry.2, test property = true)
    (htext : ∀ property : Property, property.key = textKey → test property = true) :
    (properties node).filter test =
        attributesShown before ++ (attributesShown entries).filter test ++
          (attributesShown behind ++ textShown node.children) ∧
      (properties node).filter (fun property => !test property) =
        (attributesShown entries).filter fun property => !test property := by
  have hshown : properties node = attributesShown before ++ attributesShown entries ++
      (attributesShown behind ++ textShown node.children) := by
    rw [properties, hattributes]
    simp [attributesShown]
  rw [hshown]
  refine filter_around (fun property hproperty => ?_) fun property hproperty => ?_
  · obtain ⟨entry, hentry, hinside⟩ := List.mem_flatMap.mp hproperty
    exact hothers entry (List.mem_append_left _ hentry) property hinside
  · rcases List.mem_append.mp hproperty with hattribute | hlast
    · obtain ⟨entry, hentry, hinside⟩ := List.mem_flatMap.mp hattribute
      exact hothers entry (List.mem_append_right _ hentry) property hinside
    · exact htext property (key_of_mem_textShown hlast)

/-- Of the properties of a style, those of the entries around one name are left without its key. -/
theorem filter_styleProperties {name : String} {before entries behind : Entries Value}
    (hothers : ∀ entry ∈ before ++ behind, entry.1 ≠ name)
    (hentries : ∀ entry ∈ entries, entry.1 = name) {test : Property → Bool}
    (htest : ∀ other (property : Property), property.key = stylePrefix ++ other →
      (test property = true ↔ other ≠ name)) :
    (styleProperties (before ++ entries ++ behind)).filter test =
        styleProperties before ++ styleProperties behind ∧
      (styleProperties (before ++ entries ++ behind)).filter (fun property => !test property) =
        styleProperties entries := by
  have hpass {part : Entries Value} (h : ∀ entry ∈ part, entry.1 ≠ name) :
      ∀ property ∈ styleProperties part, test property = true := by
    intro property hproperty
    obtain ⟨entry, hentry, hkey, _⟩ := exists_name_of_mem_styleProperties hproperty
    exact (htest _ _ hkey).mpr (h entry hentry)
  have hfail : ∀ property ∈ styleProperties entries, test property = false := by
    intro property hproperty
    obtain ⟨entry, hentry, hkey, _⟩ := exists_name_of_mem_styleProperties hproperty
    rw [Bool.eq_false_iff, ne_eq, htest _ _ hkey, not_not]
    exact hentries entry hentry
  have hsplit : styleProperties (before ++ entries ++ behind) =
      styleProperties before ++ styleProperties entries ++ styleProperties behind := by
    simp [styleProperties, List.filterMap_append]
  have hbefore := hpass fun entry hentry => hothers entry (List.mem_append_left _ hentry)
  have hbehind := hpass fun entry hentry => hothers entry (List.mem_append_right _ hentry)
  obtain ⟨hkept, hlost⟩ := @filter_around _ (styleProperties entries) _ _ hbefore hbehind
  rw [hsplit, hkept, hlost]
  constructor
  · rw [List.filter_eq_nil_iff.mpr fun property hproperty => by simp [hfail property hproperty],
      List.append_nil]
  · exact List.filter_eq_self.mpr fun property hproperty => by simp [hfail property hproperty]

/-! ## One property is exchanged -/

section Written

variable {node changed : Node} {key : String} {value : Value} {plain : Plain}

theorem attributesShown_singleton (key : String) (value : Value) :
    attributesShown [(key, value)] = attributeProperties key value := by
  rw [attributesShown, List.flatMap_cons, List.flatMap_nil, List.append_nil]

/-- An attribute that is set is shown once, and all other properties are shown as before. -/
theorem properties_written_attribute (hproper : (Value.mapping node.attributes).Proper)
    (hname : styleName? key = none) (hstyle : key ≠ styleKey) (htext : key ≠ textKey)
    (hvalue : scalar? value = some plain) (hattributes : changed.attributes = written node key value)
    (hchildren : changed.children = node.children) :
    (∃ kind, (properties changed).filter (fun property => property.key == key) =
        [{ key, value := plain, kind }]) ∧
      (properties changed).filter (fun property => !(property.key == key)) =
        (properties node).filter fun property => !overwrites node key property := by
  obtain ⟨before, behind, hsplit, hothers, hset⟩ := Entries.exists_split hproper.1 key
  have hchanged : changed.attributes = before ++ [(key, value)] ++ behind := by
    unfold written at hattributes
    rw [hattributes, hname]
    simp [hset]
  have hother : ∀ entry ∈ before ++ behind, ∀ property ∈ attributeProperties entry.1 entry.2,
      (!(property.key == key)) = true := by
    intro entry hentry property hproperty
    rw [Bool.not_eq_true', beq_eq_false_iff_ne]
    rintro rfl
    rcases cases_of_mem_attributeProperties hproperty with ⟨hkey, _⟩ | ⟨_, entries, _, hinner⟩
    · exact hothers entry hentry hkey.symm
    · obtain ⟨inner, _, hkey, _⟩ := exists_name_of_mem_styleProperties hinner
      rw [styleName?_eq_some_iff.mpr hkey] at hname
      cases hname
  have hlast : ∀ property : Property, property.key = textKey → (!(property.key == key)) = true := by
    intro property hkey
    rw [Bool.not_eq_true', beq_eq_false_iff_ne, hkey]
    exact htext.symm
  have hold : ∀ property ∈ attributesShown ((node.attributes.find? key).map (key, ·)).toList,
      property.key = key := by
    intro property hproperty
    obtain ⟨entry, hentry, hproperty⟩ := List.mem_flatMap.mp hproperty
    obtain ⟨old, _, rfl⟩ := Option.map_eq_some_iff.mp (Option.mem_toList.mp hentry)
    rcases cases_of_mem_attributeProperties hproperty with ⟨hkey, _⟩ | ⟨hkey, _⟩
    · exact hkey
    · exact absurd hkey hstyle
  obtain ⟨hafter, hfound⟩ := filter_properties hchanged hother hlast
  obtain ⟨hbefore, _⟩ := filter_properties hsplit hother hlast
  rw [attributesShown_singleton, attributeProperties_of_scalar? hvalue] at hafter hfound
  simp only [Bool.not_not] at hfound
  refine ⟨⟨valueKind value, by rw [hfound]; simp⟩, ?_⟩
  have hsame : (fun property => !overwrites node key property) =
      fun property : Property => !(property.key == key) := by
    funext property
    simp [overwrites, hname]
  have hlost : (attributesShown ((node.attributes.find? key).map (key, ·)).toList).filter
      (fun property => !(property.key == key)) = [] :=
    List.filter_eq_nil_iff.mpr fun property hproperty => by simp [hold property hproperty]
  rw [hsame, hafter, hbefore, hlost, hchildren]
  simp

/-- What is shown of the style of a node, if another style entry is set. -/
theorem filter_shown_style (name : String) {before behind : Entries Value}
    (hsplit : styleEntries node =
      before ++ (((styleEntries node).find? name).map (name, ·)).toList ++ behind)
    (hothers : ∀ entry ∈ before ++ behind, entry.1 ≠ name) :
    (attributesShown ((node.attributes.find? styleKey).map (styleKey, ·)).toList).filter
        (fun property => !overwrites node (stylePrefix ++ name) property) =
      styleProperties before ++ styleProperties behind := by
  have hname : styleName? (stylePrefix ++ name) = some name := styleName?_eq_some_iff.mpr rfl
  -- Without a mapping there are no entries, and a style of another kind is overwritten.
  have hplain (hmapping : hasStyleMapping node = false) (hempty : styleEntries node = [])
      (hold : ∀ entries, node.attributes.find? styleKey ≠ some (.mapping entries)) :
      (attributesShown ((node.attributes.find? styleKey).map (styleKey, ·)).toList).filter
          (fun property => !overwrites node (stylePrefix ++ name) property) =
        styleProperties before ++ styleProperties behind := by
    obtain ⟨hfront, rfl⟩ := List.append_eq_nil_iff.mp (hsplit.symm.trans hempty)
    obtain ⟨rfl, _⟩ := List.append_eq_nil_iff.mp hfront
    refine List.filter_eq_nil_iff.mpr fun property hproperty => ?_
    obtain ⟨entry, hentry, hproperty⟩ := List.mem_flatMap.mp hproperty
    obtain ⟨old, hfound, rfl⟩ := Option.map_eq_some_iff.mp (Option.mem_toList.mp hentry)
    rcases cases_of_mem_attributeProperties hproperty with ⟨hkey, _⟩ | ⟨_, entries, rfl, _⟩
    · have hkey : property.key = styleKey := hkey
      simp [overwrites, hname, hmapping, hkey]
    · exact absurd hfound (hold entries)
  cases hfound : node.attributes.find? styleKey with
  | none =>
      rw [← hfound]
      exact hplain (by rw [hasStyleMapping, hfound]) (by rw [styleEntries, hfound])
        (by rw [hfound]; exact nofun)
  | some old =>
      rw [← hfound]
      cases old with
      | mapping entries =>
          have hmapping : hasStyleMapping node = true := by rw [hasStyleMapping, hfound]
          have hentries : styleEntries node = entries := by rw [styleEntries, hfound]
          have htest : ∀ other (property : Property), property.key = stylePrefix ++ other →
              ((!overwrites node (stylePrefix ++ name) property) = true ↔ other ≠ name) := by
            intro other property hkey
            simp [overwrites, hmapping, hkey]
          have hshown : attributesShown ((node.attributes.find? styleKey).map (styleKey, ·)).toList =
              styleProperties (styleEntries node) := by
            rw [hfound, hentries]
            exact attributesShown_singleton styleKey (.mapping entries)
          rw [hshown, hsplit]
          refine (filter_styleProperties hothers (fun entry hentry => ?_) htest).1
          obtain ⟨_, _, rfl⟩ := Option.map_eq_some_iff.mp (Option.mem_toList.mp hentry)
          rfl
      | string _ | number _ | boolean _ | expression _ =>
          exact hplain (by rw [hasStyleMapping, hfound]) (by rw [styleEntries, hfound])
            (by rw [hfound]; exact nofun)

theorem proper_styleEntries (hproper : (Value.mapping node.attributes).Proper) :
    (Value.mapping (styleEntries node)).Proper := by
  rw [styleEntries]
  split
  · next entries hfound => exact hproper.entry (Entries.mem_of_find? hfound)
  · exact ⟨List.nodup_nil, trivial⟩

/-- A style entry that is set is shown once, and all other properties are shown as before; only a style
that was no mapping is shown no more. -/
theorem properties_written_style (hproper : (Value.mapping node.attributes).Proper)
    (hdots : ∀ entry ∈ node.attributes, '.' ∉ entry.1.toList) (name : String)
    (hvalue : scalar? value = some plain)
    (hattributes : changed.attributes = written node (stylePrefix ++ name) value)
    (hchildren : changed.children = node.children) :
    (∃ kind, (properties changed).filter (fun property => property.key == stylePrefix ++ name) =
        [{ key := stylePrefix ++ name, value := plain, kind }]) ∧
      (properties changed).filter (fun property => !(property.key == stylePrefix ++ name)) =
        (properties node).filter
          fun property => !overwrites node (stylePrefix ++ name) property := by
  obtain ⟨before, behind, hsplit, hothers, hset⟩ := Entries.exists_split hproper.1 styleKey
  obtain ⟨front, rest, hstyle, hnames, hwritten⟩ :=
    Entries.exists_split (proper_styleEntries hproper).1 name
  have hchanged : changed.attributes =
      before ++ [(styleKey, .mapping (front ++ [(name, value)] ++ rest))] ++ behind := by
    unfold written at hattributes
    rw [hattributes, styleName?_eq_some_iff.mpr rfl]
    simp [hset, hwritten]
  -- A name without a dot is neither the key of a style entry nor, beside the style, the style's name.
  have hother : ∀ entry ∈ before ++ behind, ∀ property ∈ attributeProperties entry.1 entry.2,
      property.key ≠ stylePrefix ++ name ∧ property.key ≠ styleKey := by
    intro entry hentry property hproperty
    have hmem : entry ∈ node.attributes := by
      rw [hsplit]
      rcases List.mem_append.mp hentry with hfront | hback
      · exact List.mem_append_left _ (List.mem_append_left _ hfront)
      · exact List.mem_append_right _ hback
    rcases cases_of_mem_attributeProperties hproperty with ⟨hkey, _⟩ | ⟨hkey, _⟩
    · refine ⟨fun heq => hdots entry hmem ?_, hkey ▸ hothers entry hentry⟩
      rw [← hkey, heq]
      exact dot_mem_stylePrefix_append name
    · exact absurd hkey (hothers entry hentry)
  have hlast : textKey ≠ stylePrefix ++ name ∧ textKey ≠ styleKey := by
    refine ⟨fun heq => ?_, by decide⟩
    have hdot := dot_mem_stylePrefix_append name
    rw [← heq] at hdot
    exact absurd hdot (by decide)
  have htest : ∀ other (property : Property), property.key = stylePrefix ++ other →
      ((!(property.key == stylePrefix ++ name)) = true ↔ other ≠ name) := by
    intro other property hkey
    simp [hkey]
  have hentry : ∀ entry ∈ [(name, value)], entry.1 = name := by simp
  obtain ⟨hinner, hone⟩ := filter_styleProperties hnames hentry htest
  obtain ⟨hafter, hfound⟩ := @filter_properties changed _ _ _ hchanged
    (fun property => !(property.key == stylePrefix ++ name))
    (fun entry hentry property hproperty => by simp [(hother entry hentry property hproperty).1])
    (fun property hkey => by simp [hkey, hlast.1])
  obtain ⟨hbefore, _⟩ := @filter_properties node _ _ _ hsplit
    (fun property => !overwrites node (stylePrefix ++ name) property)
    (fun entry hentry property hproperty => by
      simp [overwrites, hother entry hentry property hproperty])
    (fun property hkey => by simp [overwrites, hkey, hlast])
  have hshown : attributeProperties styleKey (.mapping (front ++ [(name, value)] ++ rest)) =
      styleProperties (front ++ [(name, value)] ++ rest) := rfl
  rw [attributesShown_singleton, hshown] at hafter hfound
  rw [hinner] at hafter
  rw [hone, styleProperties_singleton hvalue] at hfound
  simp only [Bool.not_not] at hfound
  refine ⟨⟨styleKind name value, hfound⟩, ?_⟩
  rw [hafter, hbefore, hchildren, filter_shown_style name hstyle hnames]

end Written

end EditableMarkup.Panel
