import EditableMarkup.Proofs.Number.Printed
import EditableMarkup.Tree.Printed

/-!
# Printable trees

A tree is printable if its names are names of markup, its numbers are finite
and can be written, and its expressions are paths of names.  Its texts,
strings and keys may be anything.  As every tree that is made of nodes, it has
no key twice, no blank texts, and no attributes on a fragment.
-/

namespace EditableMarkup

open Grammar

/-- A word with further words behind points. -/
def pathChars (first : List Char) (rest : List (List Char)) : List Char :=
  first ++ rest.flatMap fun word => '.' :: word

/-- A source is a path: a name that no reserved word opens, and any names behind points. -/
def IsPath (source : String) : Prop :=
  ∃ first rest, source.toList = pathChars first rest ∧ Lexeme.name first = some first.length ∧
    ∀ word ∈ rest, Lexeme.anyName word = some word.length

/-- A word is a name of markup as a whole. -/
def IsMarkupName (word : String) : Prop :=
  Lexeme.markupName word.toList = some word.toList.length

instance (word : String) : Decidable (IsMarkupName word) :=
  inferInstanceAs (Decidable (_ = _))

/-- No key stands twice. -/
def Entries.Distinct {α : Type} (entries : Entries α) : Prop :=
  (entries.map Prod.fst).Nodup

/-- A new key comes last. -/
theorem Entries.set_eq_append {α : Type} {key : String} {value : α} {entries : Entries α}
    (h : key ∉ entries.map Prod.fst) : entries.set key value = entries ++ [(key, value)] := by
  induction entries with
  | nil => rfl
  | cons entry entries ih =>
      obtain ⟨other, old⟩ := entry
      simp only [List.map_cons, List.mem_cons, not_or] at h
      rw [Entries.set, if_neg (Ne.symm h.1), ih h.2, List.cons_append]

theorem Entries.mem_of_mem_set {α : Type} {key : String} {value : α} {entries : Entries α}
    {entry : String × α} (h : entry ∈ entries.set key value) :
    entry ∈ entries ∨ entry = (key, value) := by
  induction entries with
  | nil => exact Or.inr (List.mem_singleton.mp h)
  | cons first rest ih =>
      unfold Entries.set at h
      split at h
      · rcases List.mem_cons.mp h with rfl | h
        · exact Or.inr rfl
        · exact Or.inl (List.mem_cons_of_mem _ h)
      · rcases List.mem_cons.mp h with rfl | h
        · exact Or.inl (List.mem_cons_self ..)
        · exact (ih h).imp_left (List.mem_cons_of_mem _)

/-- No key stands twice if one is set. -/
theorem Entries.Distinct.set {α : Type} {entries : Entries α} (h : entries.Distinct) (key : String)
    (value : α) : (entries.set key value).Distinct := by
  induction entries with
  | nil => simp [Entries.Distinct, Entries.set]
  | cons entry rest ih =>
      obtain ⟨other, old⟩ := entry
      obtain ⟨hnew, hrest⟩ := List.nodup_cons.mp h
      rw [Entries.set]
      split
      · next heq => exact List.nodup_cons.mpr ⟨heq ▸ hnew, hrest⟩
      · next hne =>
          refine List.nodup_cons.mpr ⟨fun hmem => ?_, ih hrest⟩
          obtain ⟨found, hfound, hkey⟩ := List.mem_map.mp hmem
          rcases Entries.mem_of_mem_set hfound with hold | rfl
          · exact hnew (List.mem_map.mpr ⟨found, hold, hkey⟩)
          · exact hne hkey.symm

/-- A fragment, or an element whose name is a name of markup. -/
def Tag.Printable : Tag → Prop
  | .fragment => True
  | .named name => IsMarkupName name

section PrintableWith

variable {accepts : String → Prop}

mutual

/-- A value whose numbers are finite and can be written and whose expressions are accepted. -/
def Value.PrintableWith (accepts : String → Prop) : Value → Prop
  | .number value => value.isFinite = true ∧ value.isWritable = true
  | .expression source => accepts source
  | .mapping entries => Entries.Distinct entries ∧ Value.AllPrintableWith accepts entries
  | .string _ => True
  | .boolean _ => True

/-- All values of entries are printable. -/
def Value.AllPrintableWith (accepts : String → Prop) : List (String × Value) → Prop
  | [] => True
  | (_, value) :: rest => value.PrintableWith accepts ∧ Value.AllPrintableWith accepts rest

end

theorem Value.AllPrintableWith.mem : {entries : List (String × Value)} →
    Value.AllPrintableWith accepts entries → ∀ entry ∈ entries, entry.2.PrintableWith accepts
  | [], _, _, hentry => nomatch hentry
  | _ :: rest, ⟨hvalue, hrest⟩, entry, hentry => by
    rcases List.mem_cons.mp hentry with rfl | hbehind
    · exact hvalue
    · exact Value.AllPrintableWith.mem hrest entry hbehind

/-- The attributes of a node with a tag: they have different names of markup as keys, their values
are printable, and a fragment has none. -/
structure AttributesPrintableWith (accepts : String → Prop) (tag : Tag)
    (attributes : Entries Value) : Prop where
  distinct : Entries.Distinct attributes
  names : ∀ entry ∈ attributes, IsMarkupName entry.1
  values : Value.AllPrintableWith accepts attributes
  fragment : tag = .fragment → attributes = []

mutual

/-- A node whose tag, attributes and children are printable. -/
def Node.PrintableWith (accepts : String → Prop) : Node → Prop
  | ⟨tag, attributes, children, _⟩ =>
    tag.Printable ∧ AttributesPrintableWith accepts tag attributes ∧
      Node.ChildrenPrintableWith accepts children

/-- Children that are no blank texts, whose expressions are accepted and whose nodes are printable. -/
def Node.ChildrenPrintableWith (accepts : String → Prop) : List (Content Node) → Prop
  | [] => True
  | .text text :: rest =>
    Text.isBlankText text = false ∧ Node.ChildrenPrintableWith accepts rest
  | .expression source :: rest => accepts source ∧ Node.ChildrenPrintableWith accepts rest
  | .node node :: rest =>
    node.PrintableWith accepts ∧ Node.ChildrenPrintableWith accepts rest

end

/-- A value whose numbers are finite and can be written and whose expressions are paths. -/
abbrev Value.Printable : Value → Prop := Value.PrintableWith IsPath

/-- The attributes of a node with a tag are printable, with paths as expressions. -/
abbrev AttributesPrintable (tag : Tag) (attributes : Entries Value) : Prop :=
  AttributesPrintableWith IsPath tag attributes

/-- A node whose tag, attributes and children are printable, with paths as expressions. -/
abbrev Node.Printable : Node → Prop := Node.PrintableWith IsPath

/-- Children that are no blank texts, whose expressions are paths and whose nodes are printable. -/
abbrev Node.ChildrenPrintable : List (Content Node) → Prop := Node.ChildrenPrintableWith IsPath

/-! ## What can be written -/

mutual

theorem Value.PrintableWith.isWritable : {value : Value} → value.PrintableWith accepts →
    value.isWritable = true
  | .string _, _ => rfl
  | .number _, h => h.2
  | .boolean _, _ => rfl
  | .expression _, _ => rfl
  | .mapping _, h => Value.AllPrintableWith.areWritable h.2

theorem Value.AllPrintableWith.areWritable : {entries : List (String × Value)} →
    Value.AllPrintableWith accepts entries → Value.areWritable entries = true
  | [], _ => rfl
  | (_, value) :: rest, h => by
    have hvalue : value.isWritable = true := Value.PrintableWith.isWritable h.1
    have hrest : Value.areWritable rest = true := Value.AllPrintableWith.areWritable h.2
    rw [Value.areWritable, hvalue, hrest]
    rfl

end

mutual

theorem Node.PrintableWith.isWritable : {node : Node} → node.PrintableWith accepts →
    node.isWritable = true
  | ⟨_, _, _, _⟩, h => by
    rw [Node.isWritable, h.2.1.values.areWritable, Node.ChildrenPrintableWith.areWritable h.2.2]
    rfl

theorem Node.ChildrenPrintableWith.areWritable : {children : List (Content Node)} →
    Node.ChildrenPrintableWith accepts children → Node.areWritable children = true
  | [], _ => rfl
  | .text _ :: rest, h => (show Node.ChildrenPrintableWith accepts rest from h.2).areWritable
  | .expression _ :: rest, h => (show Node.ChildrenPrintableWith accepts rest from h.2).areWritable
  | .node node :: rest, h => by
    have hnode : node.isWritable = true := Node.PrintableWith.isWritable h.1
    have hrest : Node.areWritable rest = true := Node.ChildrenPrintableWith.areWritable h.2
    rw [Node.areWritable, hnode, hrest]
    rfl

end

theorem Node.childrenPrintable_append {front back : List (Content Node)} :
    Node.ChildrenPrintableWith accepts (front ++ back) ↔
      Node.ChildrenPrintableWith accepts front ∧ Node.ChildrenPrintableWith accepts back := by
  induction front with
  | nil => simp [Node.ChildrenPrintableWith]
  | cons content front ih => cases content <;> simp [Node.ChildrenPrintableWith, ih, and_assoc]

/-- A printable tree is written as it is printed. -/
theorem Node.PrintableWith.serialize_eq {node : Node} (h : node.PrintableWith accepts)
    (indent : Int) : node.serialize indent = .ok (node.print indent) := by
  rw [Node.serialize, if_pos h.isWritable]

/-- An element without attributes is printable, if its name and its children are. -/
theorem Node.printable_element {name id : String} {children : List (Content Node)}
    (hname : IsMarkupName name) (hchildren : Node.ChildrenPrintableWith accepts children) :
    Node.PrintableWith accepts ⟨.named name, [], children, id⟩ :=
  ⟨hname, ⟨List.nodup_nil, by simp, trivial, fun h => nomatch h⟩, hchildren⟩

/-- Printable nodes are printable children. -/
theorem Node.childrenPrintable_of_nodes : {nodes : List Node} →
    (∀ node ∈ nodes, node.PrintableWith accepts) →
    Node.ChildrenPrintableWith accepts (nodes.map Content.node)
  | [], _ => trivial
  | node :: _, h =>
    ⟨h node (List.mem_cons_self ..),
      Node.childrenPrintable_of_nodes fun other hother => h other (List.mem_cons_of_mem _ hother)⟩

/-! ## More expressions -/

variable {allows : String → Prop}

mutual

/-- A value stays printable if more expressions are accepted. -/
theorem Value.PrintableWith.mono (haccepts : ∀ source, accepts source → allows source) :
    {value : Value} → value.PrintableWith accepts → value.PrintableWith allows
  | .string _, _ => trivial
  | .number _, h => h
  | .boolean _, _ => trivial
  | .expression source, h => haccepts source h
  | .mapping _, h => ⟨h.1, Value.AllPrintableWith.mono haccepts h.2⟩

theorem Value.AllPrintableWith.mono (haccepts : ∀ source, accepts source → allows source) :
    {entries : List (String × Value)} → Value.AllPrintableWith accepts entries →
    Value.AllPrintableWith allows entries
  | [], _ => trivial
  | _ :: _, h => ⟨Value.PrintableWith.mono haccepts h.1, Value.AllPrintableWith.mono haccepts h.2⟩

end

theorem AttributesPrintableWith.mono (haccepts : ∀ source, accepts source → allows source)
    {tag : Tag} {attributes : Entries Value} (h : AttributesPrintableWith accepts tag attributes) :
    AttributesPrintableWith allows tag attributes where
  distinct := h.distinct
  names := h.names
  values := h.values.mono haccepts
  fragment := h.fragment

mutual

/-- A node stays printable if more expressions are accepted. -/
theorem Node.PrintableWith.mono (haccepts : ∀ source, accepts source → allows source) :
    {node : Node} → node.PrintableWith accepts → node.PrintableWith allows
  | ⟨_, _, _, _⟩, ⟨htag, hattributes, hchildren⟩ =>
    ⟨htag, hattributes.mono haccepts, Node.ChildrenPrintableWith.mono haccepts hchildren⟩

theorem Node.ChildrenPrintableWith.mono (haccepts : ∀ source, accepts source → allows source) :
    {children : List (Content Node)} → Node.ChildrenPrintableWith accepts children →
    Node.ChildrenPrintableWith allows children
  | [], _ => trivial
  | .text _ :: _, h => ⟨h.1, Node.ChildrenPrintableWith.mono haccepts h.2⟩
  | .expression source :: _, h =>
    ⟨haccepts source h.1, Node.ChildrenPrintableWith.mono haccepts h.2⟩
  | .node _ :: _, h =>
    ⟨Node.PrintableWith.mono haccepts h.1, Node.ChildrenPrintableWith.mono haccepts h.2⟩

end

end PrintableWith

/-! ## What is read back -/

mutual

/-- What a printed value is read back as: the numbers in it may change their kind. -/
def Value.reread : Value → Value
  | .number value => .number value.reread
  | .mapping entries => .mapping (Value.rereadAll entries)
  | .string text => .string text
  | .boolean value => .boolean value
  | .expression source => .expression source

/-- What the entries of a mapping are read back as. -/
def Value.rereadAll : List (String × Value) → List (String × Value)
  | [] => []
  | (key, value) :: rest => (key, value.reread) :: Value.rereadAll rest

end

end EditableMarkup
