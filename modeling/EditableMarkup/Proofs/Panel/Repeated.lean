import EditableMarkup.Proofs.Panel.Written
import EditableMarkup.Proofs.Tree.Rearranged

/-!
# Setting several properties

Of two values that are set under one key the last one stays, as if the first one
had never been set.  Under different keys the order of setting shows in the order
of new attributes and new style entries only, whatever the style was before.  The
style as a whole and an entry of it are no such keys: one of them overwrites the
other.
-/

namespace EditableMarkup

namespace Panel

/-! ## Attributes that are set twice -/

section Attributes

variable {node : Node} {key other : String}

/-- The style of a node has the entries of the mapping that it is set to. -/
theorem styleEntries_set (attributes : Entries Value) (entries : Entries Value) :
    styleEntries { node with attributes := attributes.set styleKey (.mapping entries) } = entries := by
  rw [styleEntries, Entries.find?_set_self]

/-- Setting another attribute keeps the style. -/
theorem styleEntries_set_of_ne (h : styleKey ≠ key) (value : Value) :
    styleEntries { node with attributes := node.attributes.set key value } = styleEntries node := by
  rw [styleEntries, Entries.find?_set_of_ne h, styleEntries]

theorem written_of_styleName?_eq_none (h : styleName? key = none) (node : Node) (value : Value) :
    written node key value = node.attributes.set key value := by
  unfold written
  rw [h]

theorem written_stylePrefix (node : Node) (name : String) (value : Value) :
    written node (stylePrefix ++ name) value =
      node.attributes.set styleKey (.mapping ((styleEntries node).set name value)) := by
  unfold written
  rw [styleName?_eq_some_iff.mpr rfl]

/-- The last value that is set under a key stays. -/
theorem written_written (node : Node) (key : String) (value last : Value) :
    written { node with attributes := written node key value } key last = written node key last := by
  cases hname : styleName? key with
  | none =>
      simp only [written_of_styleName?_eq_none hname]
      exact Entries.set_set ..
  | some name =>
      obtain rfl := styleName?_eq_some_iff.mp hname
      simp only [written_stylePrefix, styleEntries_set, Entries.set_set]

/-- Values under different keys are set in either order, up to the order of new keys. -/
theorem written_comm (node : Node) (hne : key ≠ other)
    (hstyle : key = styleKey → ∀ name, other ≠ stylePrefix ++ name)
    (hstyle' : other = styleKey → ∀ name, key ≠ stylePrefix ++ name) (value last : Value) :
    Entries.Rearranged
      (written { node with attributes := written node key value } other last)
      (written { node with attributes := written node other last } key value) := by
  cases hname : styleName? key with
  | none =>
      cases hname' : styleName? other with
      | none =>
          simp only [written_of_styleName?_eq_none hname, written_of_styleName?_eq_none hname']
          exact .of_perm (Entries.set_set_perm hne _ _ _)
      | some name =>
          obtain rfl := styleName?_eq_some_iff.mp hname'
          have hkey : styleKey ≠ key := fun heq => hstyle heq.symm name rfl
          simp only [written_of_styleName?_eq_none hname, written_stylePrefix,
            styleEntries_set_of_ne hkey]
          exact .of_perm (Entries.set_set_perm hkey.symm _ _ _)
  | some name =>
      obtain rfl := styleName?_eq_some_iff.mp hname
      cases hname' : styleName? other with
      | none =>
          have hkey : styleKey ≠ other := fun heq => hstyle' heq.symm name rfl
          simp only [written_of_styleName?_eq_none hname', written_stylePrefix,
            styleEntries_set_of_ne hkey]
          exact .of_perm (Entries.set_set_perm hkey _ _ _)
      | some name' =>
          obtain rfl := styleName?_eq_some_iff.mp hname'
          have hnames : name ≠ name' := fun heq => hne (heq ▸ rfl)
          simp only [written_stylePrefix, styleEntries_set, Entries.set_set]
          exact .set _ _ (Entries.Rearranged.mapping (.of_perm (Entries.set_set_perm hnames _ _ _)))

end Attributes

/-! ## Nodes that are set twice -/

section Nodes

variable {node one two : Node} {key other : String} {value last : Plain}

/-- The last value that is set under a key stays, or is refused, as if there had been no other. -/
theorem write_write (hnode : node.Remade) (h : write node key value = .ok one) (last : Plain) :
    write one key last = write node key last := by
  have hone := remade_of_write h
  cases (write_eq_ok_iff hnode).mp h with
  | children htext _ => rw [htext, write_textKey hone, write_textKey hnode]
  | attributes htext _ _ =>
      rw [write_of_ne hone htext, write_of_ne hnode htext]
      simp only [written_written]

/-- Values that are set under different keys are set in either order, with the same outcome up to the
order of attributes and style entries. -/
theorem write_comm (hnode : node.Remade) (hne : key ≠ other)
    (hstyle : key = styleKey → ∀ name, other ≠ stylePrefix ++ name)
    (hstyle' : other = styleKey → ∀ name, key ≠ stylePrefix ++ name)
    (h : write node key value = .ok one) (h' : write node other last = .ok two) :
    ∃ both both', write one other last = .ok both ∧ write two key value = .ok both' ∧
      both.Reordered both' := by
  have hone := remade_of_write h
  have htwo := remade_of_write h'
  simp only [write_eq_ok_iff hone, write_eq_ok_iff htwo]
  cases (write_eq_ok_iff hnode).mp h with
  | children htext hwritable =>
      cases (write_eq_ok_iff hnode).mp h' with
      | children htext' _ => exact absurd (htext.trans htext'.symm) hne
      | attributes htext' htag hvalue =>
          exact ⟨_, _, .attributes htext' (by exact htag) hvalue, .children htext hwritable, .refl _⟩
  | attributes htext htag hvalue =>
      cases (write_eq_ok_iff hnode).mp h' with
      | children htext' hwritable =>
          exact ⟨_, _, .children htext' hwritable, .attributes htext (by exact htag) hvalue, .refl _⟩
      | attributes htext' htag' hvalue' =>
          refine ⟨_, _, .attributes htext' (by exact htag) hvalue',
            .attributes htext (by exact htag) hvalue, ?_⟩
          exact ⟨rfl, written_comm node hne hstyle hstyle' _ _, rfl, rfl⟩

end Nodes

/-! ## Proper values -/

end Panel

mutual

/-- No record in a plain value, and no mapping that is an attribute value in it, has a key twice. -/
def Plain.Proper : Plain → Prop
  | .record fields => Entries.Distinct fields ∧ Plain.AllProper fields
  | .attribute value => value.Proper
  | .nothing | .boolean _ | .number _ | .string _ | .list _ => True

/-- The values of fields are proper. -/
def Plain.AllProper : List (String × Plain) → Prop
  | [] => True
  | (_, value) :: rest => value.Proper ∧ Plain.AllProper rest

end

namespace Panel

theorem keys_of_entriesOf {fields : List (String × Plain)} {entries : List (String × Value)}
    (h : entriesOf fields = .ok entries) : entries.map Prod.fst = fields.map Prod.fst := by
  induction fields generalizing entries with
  | nil =>
      cases h
      rfl
  | cons field rest ih =>
      obtain ⟨value, _, h⟩ := exists_of_bind_eq_ok h
      obtain ⟨others, hothers, h⟩ := exists_of_bind_eq_ok h
      cases h
      rw [List.map_cons, List.map_cons, ih hothers]

mutual

/-- A proper value is set as a proper one. -/
theorem proper_valueOf : (plain : Plain) → plain.Proper → ∀ value, valueOf plain = .ok value →
    value.Proper
  | .record fields, hproper, value, h => by
      obtain ⟨entries, hentries, h⟩ := exists_of_bind_eq_ok h
      cases h
      refine ⟨?_, allProper_entriesOf fields hproper.2 entries hentries⟩
      rw [Entries.Distinct, keys_of_entriesOf hentries]
      exact hproper.1
  | .attribute value, hproper, found, h => by
      cases value with
      | number number =>
          obtain ⟨_, rfl⟩ := finiteNumber_eq_ok_iff.mp h
          trivial
      | string _ | boolean _ | mapping _ | expression _ =>
          cases h
          exact hproper
  | .number number, _, value, h => by
      obtain ⟨_, rfl⟩ := finiteNumber_eq_ok_iff.mp h
      trivial
  | .boolean _, _, value, h | .string _, _, value, h => by
      cases h
      trivial
  | .nothing, _, value, h | .list _, _, value, h => nomatch h

theorem allProper_entriesOf : (fields : List (String × Plain)) → Plain.AllProper fields →
    ∀ entries, entriesOf fields = .ok entries → Value.AllProper entries
  | [], _, entries, h => by
      cases h
      trivial
  | (_, plain) :: rest, hproper, entries, h => by
      obtain ⟨value, hvalue, h⟩ := exists_of_bind_eq_ok h
      obtain ⟨others, hothers, h⟩ := exists_of_bind_eq_ok h
      cases h
      exact ⟨proper_valueOf plain hproper.1 value hvalue,
        allProper_entriesOf rest hproper.2 others hothers⟩

end

theorem proper_written {node : Node} (h : (Value.mapping node.attributes).Proper) (key : String)
    {value : Value} (hvalue : value.Proper) : (Value.mapping (written node key value)).Proper := by
  unfold written
  split
  · exact h.set _ ((proper_styleEntries h).set _ hvalue)
  · exact h.set _ hvalue

/-- A node stays proper when a property is set to a proper value. -/
theorem proper_write {node changed : Node} (hnode : node.Remade) (hproper : node.Proper) {key : String}
    {plain : Plain} (hplain : plain.Proper) (h : write node key plain = .ok changed) :
    changed.Proper := by
  obtain ⟨hattributes, hbelow⟩ := Node.proper_iff.mp hproper
  cases (write_eq_ok_iff hnode).mp h with
  | children _ _ =>
      exact Node.proper_iff.mpr
        ⟨hattributes, fun child hchild => absurd hchild (node_not_mem_textContent child _)⟩
  | attributes _ _ hvalue =>
      exact Node.proper_iff.mpr
        ⟨proper_written hattributes key (proper_valueOf plain hplain _ hvalue), hbelow⟩

/-! ## Trees that are set twice -/

section Trees

variable {tree new node changed final : Node} {id key other : String} {value last : Plain}
  {path : List Nat}

theorem WrittenAt.found_again (hbuilt : tree.Built)
    (h : WrittenAt tree id key value path node changed new) : Node.path? id new = some path := by
  have hid : changed.id = node.id := by
    cases (write_eq_ok_iff (hbuilt.at? h.leads).remade).mp h.made <;> rfl
  obtain ⟨found, hfound, hown⟩ := Node.exists_at?_of_path? h.found
  cases Option.some.inj (h.leads.symm.trans hfound)
  rw [h.result]
  exact Node.path?_replaceAt h.found (hid.trans hown)

theorem WrittenAt.leads_again (h : WrittenAt tree id key value path node changed new) :
    new.at? path = some changed := by
  rw [h.result]
  exact Node.at?_replaceAt h.leads changed

/-- Another property is set in the same place. -/
theorem WrittenAt.again (hbuilt : tree.Built)
    (h : WrittenAt tree id key value path node changed new)
    (hmade : write changed other last = .ok final) :
    WrittenAt new id other last path changed final (tree.replaceAt final path) where
  found := h.found_again hbuilt
  leads := h.leads_again
  made := hmade
  result := by rw [h.result, Node.replaceAt_replaceAt h.leads]

/-- The last value that is set under a key stays, or is refused, as if there had been no other. -/
theorem setProperty_setProperty (hbuilt : tree.Built) (h : setProperty tree id key value = .ok new)
    (last : Plain) : setProperty new id key last = setProperty tree id key last := by
  have hnew := (inherits_of_setProperty hbuilt h).built
  rcases cases_of_setProperty hbuilt h with ⟨_, rfl⟩ | ⟨path, node, changed, hdone⟩
  · rfl
  · rw [setProperty_of_path? hnew (hdone.found_again hbuilt) hdone.leads_again,
      setProperty_of_path? hbuilt hdone.found hdone.leads,
      write_write (hbuilt.at? hdone.leads).remade hdone.made]
    cases write node key last with
    | error fault => rfl
    | ok final =>
        rw [hdone.result]
        exact congrArg Except.ok (Node.replaceAt_replaceAt hdone.leads changed final)

/-- Two properties that can each be set are set in either order, with the same outcome up to the order of
attributes and style entries of one node. -/
theorem exists_setProperty_comm {one two : Node} (hbuilt : tree.Built) (hproper : tree.Proper)
    (hvalue : value.Proper) (hlast : last.Proper) (h : setProperty tree id key value = .ok one)
    (h' : setProperty tree id other last = .ok two) (hne : key ≠ other)
    (hstyle : key = styleKey → ∀ name, other ≠ stylePrefix ++ name)
    (hstyle' : other = styleKey → ∀ name, key ≠ stylePrefix ++ name) :
    ∃ both both', setProperty one id other last = .ok both ∧
      setProperty two id key value = .ok both' ∧ both.Rearranged both' ∧
      (∀ place, (both.at? place).map Node.id = (both'.at? place).map Node.id) ∧
      both'.Proper := by
  rcases cases_of_setProperty hbuilt h with ⟨hnone, rfl⟩ | ⟨path, node, changed, hdone⟩
  · rcases cases_of_setProperty hbuilt h' with ⟨_, rfl⟩ | ⟨_, _, _, hdone'⟩
    · exact ⟨two, two, h', h, .refl two, fun _ => rfl, hproper⟩
    · rw [hdone'.found] at hnone
      cases hnone
  · rcases cases_of_setProperty hbuilt h' with ⟨hnone, _⟩ | ⟨path', node', changed', hdone'⟩
    · rw [hdone.found] at hnone
      cases hnone
    · obtain rfl := Option.some.inj (hdone.found.symm.trans hdone'.found)
      obtain rfl := Option.some.inj (hdone.leads.symm.trans hdone'.leads)
      have hnode := (hbuilt.at? hdone.leads).remade
      obtain ⟨final, final', hfinal, hfinal', hreordered⟩ :=
        write_comm hnode hne hstyle hstyle' hdone.made hdone'.made
      have hlater := (hdone.again hbuilt hfinal).setProperty_eq (inherits_of_setProperty hbuilt h).built
      have hlater' :=
        (hdone'.again hbuilt hfinal').setProperty_eq (inherits_of_setProperty hbuilt h').built
      have hchanged' := proper_write hnode (hproper.at? hdone.leads) hlast hdone'.made
      have hproper' := proper_write (remade_of_write hdone'.made) hchanged' hvalue hfinal'
      exact ⟨_, _, hlater, hlater', hreordered.rearranged.replaceAt tree path,
        fun place => (hreordered.id_at?_replaceAt hdone.leads place).symm,
        hproper.replaceAt hdone.leads hproper'⟩

/-- Of two values that can be set under one key of a node, the second one is set as if there had been no
first one.  Under different keys they are set in either order, unless one key is the style and the other
an entry of it: the two trees differ in the order of attributes and style entries only, they have the
same identifiers at the same paths, and they are the same if no number in them is undefined. -/
theorem setProperty_again_or_another {one two : Node} (hbuilt : tree.Built) (hproper : tree.Proper)
    (hvalue : value.Proper) (hlast : last.Proper) (h : setProperty tree id key value = .ok one)
    (h' : setProperty tree id other last = .ok two) :
    (key = other → setProperty one id other last = .ok two) ∧
      (key ≠ other → (key = styleKey → ∀ name, other ≠ stylePrefix ++ name) →
        (other = styleKey → ∀ name, key ≠ stylePrefix ++ name) →
        ∃ both both', setProperty one id other last = .ok both ∧
          setProperty two id key value = .ok both' ∧ both.Rearranged both' ∧
          (∀ place, (both.at? place).map Node.id = (both'.at? place).map Node.id) ∧
          (both.Definite → both.same both' = true)) := by
  constructor
  · rintro rfl
    rw [setProperty_setProperty hbuilt h, h']
  · intro hne hstyle hstyle'
    obtain ⟨both, both', hboth, hboth', hrearranged, hids, hproper'⟩ :=
      exists_setProperty_comm hbuilt hproper hvalue hlast h h' hne hstyle hstyle'
    exact ⟨both, both', hboth, hboth', hrearranged, hids, fun hdefinite =>
      hrearranged.same hdefinite hproper'⟩

end Trees

/-- An element with a style that is an expression and a node among its children. -/
def badge : Node :=
  ⟨.named "p", [("style", .expression "look")],
    [.text "old", .node ⟨.named "b", [], [], "inner"⟩], "badge"⟩

theorem built_badge : badge.Built := by decide

theorem proper_badge : badge.Proper := by
  simp [badge, Node.Proper, Node.ChildrenProper, Value.Proper, Value.AllProper, Entries.Distinct]

/-- A style entry is set again; another style entry and the text content are set before or after it. -/
theorem setProperty_badge :
    ∃ red blue wide named, setProperty badge "badge" "style.color" (.string "red") = .ok red ∧
      setProperty badge "badge" "style.color" (.string "blue") = .ok blue ∧
      setProperty badge "badge" "style.width" (.number (.integer 10)) = .ok wide ∧
      setProperty badge "badge" textKey (.string "new") = .ok named ∧
      setProperty red "badge" "style.color" (.string "blue") = .ok blue ∧
      (∃ both both', setProperty red "badge" "style.width" (.number (.integer 10)) = .ok both ∧
        setProperty wide "badge" "style.color" (.string "red") = .ok both' ∧
        both.Rearranged both') ∧
      ∃ both both', setProperty red "badge" textKey (.string "new") = .ok both ∧
        setProperty named "badge" "style.color" (.string "red") = .ok both' ∧
        both.Rearranged both' := by
  obtain ⟨red, hred⟩ : ∃ new, setProperty badge "badge" "style.color" (.string "red") = .ok new :=
    ⟨_, rfl⟩
  obtain ⟨blue, hblue⟩ : ∃ new, setProperty badge "badge" "style.color" (.string "blue") = .ok new :=
    ⟨_, rfl⟩
  obtain ⟨wide, hwide⟩ :
      ∃ new, setProperty badge "badge" "style.width" (.number (.integer 10)) = .ok new := ⟨_, rfl⟩
  obtain ⟨named, hnamed⟩ : ∃ new, setProperty badge "badge" textKey (.string "new") = .ok new :=
    ⟨_, rfl⟩
  have hproper (text : String) : (Plain.string text).Proper := trivial
  have hproper' (number : Number) : (Plain.number number).Proper := trivial
  obtain ⟨hagain, _⟩ := setProperty_again_or_another built_badge proper_badge (hproper _) (hproper _)
    hred hblue
  obtain ⟨_, hentries⟩ := setProperty_again_or_another built_badge proper_badge (hproper _)
    (hproper' _) hred hwide
  obtain ⟨_, htext⟩ := setProperty_again_or_another built_badge proper_badge (hproper _) (hproper _)
    hred hnamed
  obtain ⟨both, both', hboth, hboth', hsame, _⟩ :=
    hentries (by decide) (fun h => absurd h (by decide)) fun h => absurd h (by decide)
  obtain ⟨named', named'', hnamed', hnamed'', hsame', _⟩ :=
    htext (by decide) (fun h => absurd h (by decide)) fun h => absurd h (by decide)
  exact ⟨red, blue, wide, named, hred, hblue, hwide, hnamed, hagain rfl,
    ⟨both, both', hboth, hboth', hsame⟩, named', named'', hnamed', hnamed'', hsame'⟩

end Panel

end EditableMarkup
