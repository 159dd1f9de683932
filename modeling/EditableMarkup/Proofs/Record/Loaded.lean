import EditableMarkup.Proofs.Record.Stored
import Mathlib.Logic.Relation

/-!
# Loaded trees

However deep a record is nested, each node of a loaded tree is assembled in the
same way: its tag and its attributes are loaded from fields, and its children
are there already.  So what passes from the children to a node that is assembled
holds of every loaded tree.  In particular a loaded tree is built, and nothing in
it is stored like something else; hence it is stored and loaded again without a
change.
-/

namespace EditableMarkup

/-! ## Values as texts -/

theorem append_ne_empty {front : String} (h : front ≠ "") (rest : String) : front ++ rest ≠ "" := by
  intro hempty
  exact h (String.append_eq_empty_iff.mp hempty).1

theorem enclosed_ne_empty {front : String} (h : front ≠ "") (middle rest : String) :
    front ++ middle ++ rest ≠ "" :=
  append_ne_empty (append_ne_empty h middle) rest

namespace Number

theorem signed_ne_empty {negative : Bool} {text : String} (h : text ≠ "") :
    signed negative text ≠ "" := by
  cases negative with
  | false => exact h
  | true => exact append_ne_empty (by decide) _

theorem positional_ne_empty (decimal : Decimal) : positional decimal ≠ "" := by
  simp only [positional]
  split
  · decide
  · split
    · split
      · simp
      · split <;> simp
    · simp

theorem display_ne_empty (number : Number) : number.display ≠ "" := by
  cases number with
  | integer value =>
      apply signed_ne_empty
      intro h
      have hdigits : Nat.toDigits 10 value.natAbs = [] := String.ofList_injective h
      exact absurd hdigits (List.length_pos_iff.mp Nat.length_toDigits_pos)
  | real value =>
      cases value with
      | notANumber => decide
      | infinite negative => exact signed_ne_empty (by decide)
      | finite negative magnitude => exact signed_ne_empty (positional_ne_empty _)

end Number

theorem Value.shown_ne_empty (value : Value) : value.shown ≠ "" := by
  rw [Value.shown.eq_def]
  split <;> exact enclosed_ne_empty (by simp) _ _

/-- Only the empty string has no text. -/
theorem Plain.text_eq_empty_iff {value : Plain} : value.text = "" ↔ value = .string "" := by
  have hother (h : ∀ text, value ≠ .string text) (hshown : value.shown ≠ "") :
      value.text = "" ↔ value = .string "" := by
    rw [text]
    · exact iff_of_false hshown (h "")
    · exact h
  cases value with
  | nothing => exact hother (by rintro _ ⟨⟩) (by rw [shown]; decide)
  | boolean value => exact hother (by rintro _ ⟨⟩) (by rw [shown]; cases value <;> decide)
  | number value => exact hother (by rintro _ ⟨⟩) (by rw [shown]; exact value.display_ne_empty)
  | string text => simp [Plain.text]
  | list items =>
      exact hother (by rintro _ ⟨⟩) (by rw [shown]; exact enclosed_ne_empty (by decide) _ _)
  | record fields =>
      exact hother (by rintro _ ⟨⟩) (by rw [shown]; exact enclosed_ne_empty (by decide) _ _)
  | «attribute» value => exact hother (by rintro _ ⟨⟩) (by rw [shown]; exact value.shown_ne_empty)

namespace Stored

/-! ## One node after the other -/

/-- A property passes from children to every node that is assembled from them. -/
def PassesOn (property : Node → Prop) : Prop :=
  ∀ (fields : Entries Plain) (head : Tag × Entries Value) (children : List (Content Node))
    (before after : Supply) (node : Node), headOf fields = .ok head →
    assemble head fields children before = .ok (node, after) →
    (∀ child, .node child ∈ children → property child) → property node

namespace PassesOn

variable {property : Node → Prop}

mutual

/-- What passes from children to assembled nodes holds of every loaded tree. -/
theorem toNode (hpasses : PassesOn property) {supply after : Supply} {node : Node} :
    (data : Plain) → Stored.toNode supply data = .ok (node, after) → property node
  | .record fields, h => by
    rw [Stored.toNode] at h
    obtain ⟨head, hhead, h⟩ := exists_of_bind_eq_ok h
    obtain ⟨⟨children, between⟩, hchildren, h⟩ := exists_of_bind_eq_ok h
    exact hpasses fields head children between after node hhead h
      (hpasses.childrenField fields hchildren)
  | .attribute _, h | .boolean _, h | .number _, h | .string _, h | .nothing, h | .list _, h =>
    nomatch h

theorem childrenField (hpasses : PassesOn property) {supply after : Supply}
    {children : List (Content Node)} :
    (fields : List (String × Plain)) →
    Stored.childrenField supply fields = .ok (children, after) →
    ∀ child, .node child ∈ children → property child
  | [], h => by
    rw [Stored.childrenField] at h
    cases h
    exact nofun
  | (key, value) :: rest, h => by
    rw [Stored.childrenField] at h
    split at h
    · exact hpasses.childrenOf value h
    · exact hpasses.childrenField rest h

theorem childrenOf (hpasses : PassesOn property) {supply after : Supply}
    {children : List (Content Node)} :
    (data : Plain) → Stored.childrenOf supply data = .ok (children, after) →
    ∀ child, .node child ∈ children → property child
  | .list items, h => by
    rw [Stored.childrenOf] at h
    exact hpasses.toChildren items h
  | .string text, h => by
    rw [Stored.childrenOf] at h
    cases h
    exact fun child hchild => by simp at hchild
  | .record fields, h => by
    rw [Stored.childrenOf] at h
    cases h
    exact fun child hchild => by simp at hchild
  | .attribute _, h | .boolean _, h | .number _, h | .nothing, h => nomatch h

theorem toChildren (hpasses : PassesOn property) {supply after : Supply}
    {children : List (Content Node)} :
    (items : List Plain) → Stored.toChildren supply items = .ok (children, after) →
    ∀ child, .node child ∈ children → property child
  | [], h => by
    rw [Stored.toChildren] at h
    cases h
    exact nofun
  | item :: rest, h => by
    rw [Stored.toChildren] at h
    obtain ⟨⟨first, between⟩, hfirst, h⟩ := exists_of_bind_eq_ok h
    obtain ⟨⟨others, after⟩, hothers, h⟩ := exists_of_bind_eq_ok h
    cases h
    intro child hchild
    rcases List.mem_cons.mp hchild with heq | hchild
    · exact hpasses.toChild item (heq ▸ hfirst)
    · exact hpasses.toChildren rest hothers child hchild

theorem toChild (hpasses : PassesOn property) {supply after : Supply} {child : Node} :
    (item : Plain) →
    Stored.toChild supply item = .ok (.node child, after) → property child
  | .string text, h => by
    rw [Stored.toChild] at h
    cases h
  | .record fields, h => by
    rw [Stored.toChild] at h
    split at h
    · cases h
    · obtain ⟨head, hhead, h⟩ := exists_of_bind_eq_ok h
      obtain ⟨⟨children, between⟩, hchildren, h⟩ := exists_of_bind_eq_ok h
      obtain ⟨⟨node, after⟩, hnode, h⟩ := exists_of_bind_eq_ok h
      cases h
      exact hpasses fields head children between _ _ hhead hnode
        (hpasses.childrenField fields hchildren)
  | .attribute _, h | .boolean _, h | .number _, h | .nothing, h | .list _, h => nomatch h

end

end PassesOn

/-! ## Loaded trees are built -/

theorem passesOn_built : PassesOn Node.Built := by
  intro fields head children before after node _ h hchildren
  obtain ⟨made, hmade, h⟩ := exists_of_bind_eq_ok h
  cases h
  exact Node.built_of_make hmade hchildren

/-- A loaded tree is built. -/
theorem built_of_toNode {supply after : Supply} {node : Node} {data : Plain}
    (h : toNode supply data = .ok (node, after)) : node.Built :=
  passesOn_built.toNode data h

/-! ## Loaded trees are faithful -/

theorem keys_of_toEntries {fields : List (String × Plain)} {entries : List (String × Value)}
    (h : toEntries fields = .ok entries) : entries.map Prod.fst = fields.map Prod.fst := by
  induction fields generalizing entries with
  | nil =>
      rw [toEntries] at h
      cases h
      rfl
  | cons entry rest ih =>
      rw [toEntries] at h
      obtain ⟨value, _, h⟩ := exists_of_bind_eq_ok h
      obtain ⟨others, hothers, h⟩ := exists_of_bind_eq_ok h
      cases h
      rw [List.map_cons, List.map_cons, ih hothers]

mutual

/-- No mapping in a loaded value has the key of an expression alone: such a record is loaded as an
expression. -/
theorem isTold_of_toValue {value : Value} : (data : Plain) → toValue data = .ok value →
    ∀ entries ∈ value.mappings, IsTold entries
  | .boolean _, h | .number _, h | .string _, h => by
    rw [toValue] at h
    cases h
    exact nofun
  | .record fields, h => by
    by_cases hkeys : fields.map Prod.fst = [expressionKey]
    · obtain ⟨source, hsource⟩ := exists_toValue_of_keys hkeys
      rw [hsource] at h
      cases h
      exact nofun
    · rw [toValue_of_keys hkeys] at h
      obtain ⟨entries, hentries, h⟩ := exists_of_bind_eq_ok h
      cases h
      rw [Value.mappings, List.forall_mem_cons]
      constructor
      · rwa [IsTold, keys_of_toEntries hentries]
      · exact isTold_of_toEntries fields hentries
  | .attribute _, h | .list _, h | .nothing, h => nomatch h

theorem isTold_of_toEntries {entries : List (String × Value)} :
    (fields : List (String × Plain)) → toEntries fields = .ok entries →
    ∀ mapping ∈ Value.mappingsIn entries, IsTold mapping
  | [], h => by
    rw [toEntries] at h
    cases h
    exact nofun
  | (key, data) :: rest, h => by
    rw [toEntries] at h
    obtain ⟨value, hvalue, h⟩ := exists_of_bind_eq_ok h
    obtain ⟨others, hothers, h⟩ := exists_of_bind_eq_ok h
    cases h
    rw [Value.mappingsIn, List.forall_mem_append]
    exact ⟨isTold_of_toValue data hvalue, isTold_of_toEntries rest hothers⟩

end

theorem toTag_ne (text : String) : toTag text ≠ .named fragmentType := by
  unfold toTag
  split
  · exact nofun
  · next hne => exact fun h => hne (Tag.named.inj h)

theorem isTold_of_attributesOf {fields : Entries Plain} {attributes : Entries Value}
    (h : attributesOf fields = .ok attributes) :
    ∀ mapping ∈ Value.mappingsIn attributes, IsTold mapping := by
  unfold attributesOf at h
  split at h
  · cases h
    exact nofun
  · exact isTold_of_toEntries _ h
  · cases h

/-- An identifier that is empty is missing, and a minted one takes its place. -/
theorem identifierOf_ne_empty (fields : Entries Plain) (supply : Supply) :
    (identifierOf fields supply).1 ≠ "" := by
  unfold identifierOf
  split
  · exact Supply.identifier_ne_empty _
  · next hpresent =>
      cases hid : fields.find? "id" with
      | none =>
          rw [hid] at hpresent
          exact absurd rfl hpresent
      | some id =>
          intro hempty
          rw [hid, Plain.text_eq_empty_iff.mp hempty] at hpresent
          exact hpresent rfl

theorem eq_of_assemble {fields : Entries Plain} {head : Tag × Entries Value}
    {children : List (Content Node)} {before after : Supply} {node : Node}
    (h : assemble head fields children before = .ok (node, after)) :
    node = ⟨head.1, head.2, Node.withoutBlankTexts children, (identifierOf fields before).1⟩ := by
  obtain ⟨made, hmade, h⟩ := exists_of_bind_eq_ok h
  cases h
  rw [Node.make_eq] at hmade
  split at hmade
  · cases hmade
  · exact (Except.ok.inj hmade).symm

/-- What is assembled is of the kinds that are stored like nothing else. -/
theorem passesOn_allFaithful : PassesOn AllFaithful := by
  intro fields head children before after node hhead h hchildren found hfound
  obtain ⟨type, _, hhead⟩ := exists_of_bind_eq_ok hhead
  obtain ⟨attributes, hattributes, hhead⟩ := exists_of_bind_eq_ok hhead
  cases hhead
  obtain rfl := eq_of_assemble h
  rcases Node.mem_nodes_iff.mp hfound with rfl | ⟨child, hchild, hbelow⟩
  · exact ⟨toTag_ne _, isTold_of_attributesOf hattributes, identifierOf_ne_empty fields before⟩
  · exact hchildren child (Node.node_mem_withoutBlankTexts.mp hchild) found hbelow

/-! ## Storing a loaded tree -/

/-- Two records, of which the second stores a tree that the first is loaded as. -/
def StoredAgain (dump next : Plain) : Prop :=
  ∃ before after tree, toNode before dump = .ok (tree, after) ∧ ofNode tree = next

/-- A tree that was loaded, from whatever record, is loaded as it was when it is stored, without an
identifier being minted; so every later record is the first one again. -/
theorem toNode_ofNode_of_toNode {data : Plain} {supply after : Supply} {tree : Node}
    (h : toNode supply data = .ok (tree, after)) :
    (∀ other, toNode other (ofNode tree) = .ok (tree, other)) ∧
      ∀ dump, Relation.ReflTransGen StoredAgain (ofNode tree) dump → dump = ofNode tree := by
  have hagain (other : Supply) : toNode other (ofNode tree) = .ok (tree, other) := by
    rw [toNode_ofNode, loaded_eq_iff_allFaithful (built_of_toNode h)]
    exact ⟨rfl, passesOn_allFaithful.toNode data h⟩
  constructor
  · exact hagain
  · intro dump hdump
    induction hdump with
    | refl => rfl
    | tail _ hnext ih =>
        obtain ⟨before, between, loaded, hloaded, rfl⟩ := hnext
        rw [ih, hagain] at hloaded
        cases hloaded
        rfl

/-- A record without a name for its fragment or its paragraph, with a field that means nothing, a
blank text, and two records that hold the key of an expression among others. -/
def looseRecord : Plain :=
  .record
    [("type", .string "Fragment"), ("note", .nothing),
      ("children", .list
        [.string " ", .record [("$expression", .string "x"), ("type", .string "b")],
          .record
            [("type", .string "p"), ("id", .nothing),
              ("props", .record
                [("style", .record [("$expression", .string "x"), ("color", .string "red")])])]])]

/-- The tree that the record is loaded as. -/
def looseTree : Node :=
  ⟨.fragment, [],
    [.expression "x",
      .node
        ⟨.named "p",
          [("style", .mapping [("$expression", .string "x"), ("color", .string "red")])],
          [], Supply.identifier 0⟩],
    Supply.identifier 1⟩

theorem toNode_ofNode_looseTree :
    toNode ⟨0⟩ looseRecord = .ok (looseTree, ⟨2⟩) ∧
      toNode ⟨7⟩ (ofNode looseTree) = .ok (looseTree, ⟨7⟩) := by
  have h : toNode ⟨0⟩ looseRecord = .ok (looseTree, ⟨2⟩) := rfl
  exact ⟨h, (toNode_ofNode_of_toNode h).1 ⟨7⟩⟩

end Stored

end EditableMarkup
