import EditableMarkup.Proofs.Tree.Printable
import EditableMarkup.Tree.Same

/-!
# Alike trees

Two trees are alike when they have the same structure and their attributes and
the entries of their mappings stand in the same order.  Attributes that are off
are not printed, so what is read back is alike to the tree without them.
-/

namespace EditableMarkup

/-! ## Alike values and trees -/

mutual

/-- Two values are the same, with entries in the same order. -/
def Value.Alike : Value → Value → Prop
  | .string a, .string b => a = b
  | .number a, .number b => a.sameValue b = true
  | .boolean a, .boolean b => a = b
  | .expression a, .expression b => a = b
  | .mapping a, .mapping b => Value.AllAlike a b
  | _, _ => False

/-- Two lists of entries have the same keys in the same order, with alike values. -/
def Value.AllAlike : List (String × Value) → List (String × Value) → Prop
  | [], [] => True
  | (key, value) :: rest, (key', value') :: rest' =>
    key = key' ∧ value.Alike value' ∧ Value.AllAlike rest rest'
  | _, _ => False

end

mutual

/-- Two nodes agree in their tags, in their attributes and their order, and in their children. -/
def Node.Alike : Node → Node → Prop
  | ⟨tag, attributes, children, _⟩, other =>
    tag = other.tag ∧ Value.AllAlike attributes other.attributes ∧
      Node.ChildrenAlike children other.children

/-- Two lists of children agree one by one. -/
def Node.ChildrenAlike : List (Content Node) → List (Content Node) → Prop
  | [], [] => True
  | .text a :: rest, .text b :: others => a = b ∧ Node.ChildrenAlike rest others
  | .expression a :: rest, .expression b :: others => a = b ∧ Node.ChildrenAlike rest others
  | .node a :: rest, .node b :: others => a.Alike b ∧ Node.ChildrenAlike rest others
  | _, _ => False

end

/-! ## Proper trees -/

mutual

/-- No mapping in a value has a key twice. -/
def Value.Proper : Value → Prop
  | .mapping entries => Entries.Distinct entries ∧ Value.AllProper entries
  | .string _ => True
  | .number _ => True
  | .boolean _ => True
  | .expression _ => True

/-- No mapping in the values of entries has a key twice. -/
def Value.AllProper : List (String × Value) → Prop
  | [] => True
  | (_, value) :: rest => value.Proper ∧ Value.AllProper rest

end

mutual

/-- Neither a node in a tree nor a mapping has a key twice. -/
def Node.Proper : Node → Prop
  | ⟨_, attributes, children, _⟩ =>
    Entries.Distinct attributes ∧ Value.AllProper attributes ∧ Node.ChildrenProper children

/-- No node among children has a key twice. -/
def Node.ChildrenProper : List (Content Node) → Prop
  | [] => True
  | .node node :: rest => node.Proper ∧ Node.ChildrenProper rest
  | .text _ :: rest => Node.ChildrenProper rest
  | .expression _ :: rest => Node.ChildrenProper rest

end

/-! ## Alike trees are the same -/

/-- A key that stands once has the value that stands with it. -/
theorem Entries.find?_eq_some {α : Type} {entries : Entries α} (distinct : Entries.Distinct entries)
    {entry : String × α} (h : entry ∈ entries) : entries.find? entry.1 = some entry.2 := by
  induction entries with
  | nil => cases h
  | cons head rest ih =>
      obtain ⟨hnew, hrest⟩ := List.nodup_cons.mp distinct
      rcases List.mem_cons.mp h with rfl | h
      · rw [Entries.find?, if_pos rfl]
      · have hne : head.1 ≠ entry.1 := by
          intro heq
          exact hnew (heq ▸ List.mem_map_of_mem h)
        rw [Entries.find?, if_neg hne]
        exact ih hrest h

theorem Value.AllAlike.keys_eq : {a b : List (String × Value)} → Value.AllAlike a b →
    a.map Prod.fst = b.map Prod.fst
  | [], [], _ => rfl
  | (_, _) :: _, (_, _) :: _, ⟨hkey, _, hrest⟩ => by
    rw [List.map_cons, List.map_cons, hrest.keys_eq, hkey]

theorem Value.AllAlike.length_eq {a b : List (String × Value)} (h : Value.AllAlike a b) :
    a.length = b.length := by
  simpa using congrArg List.length h.keys_eq

mutual

theorem Value.Alike.same : {a b : Value} → b.Proper → a.Alike b → a.same b = true
  | .string _, .string _, _, h => beq_iff_eq.mpr h
  | .number _, .number _, _, h => h
  | .boolean _, .boolean _, _, h => beq_iff_eq.mpr h
  | .expression _, .expression _, _, h => beq_iff_eq.mpr h
  | .mapping _, .mapping _, hproper, h => by
    have hlength := Value.AllAlike.length_eq h
    have hentries := Value.AllAlike.sameEntries hproper.2 h fun _ hentry =>
      Entries.find?_eq_some hproper.1 hentry
    simp [Value.same, hlength, hentries]

/-- Alike entries are found among all entries that hold the second ones. -/
theorem Value.AllAlike.sameEntries : {a b : List (String × Value)} → Value.AllProper b →
    Value.AllAlike a b → {others : Entries Value} →
    (∀ entry ∈ b, others.find? entry.1 = some entry.2) → Value.sameEntries a others = true
  | [], [], _, _, _, _ => rfl
  | (_, _) :: _, (key, value) :: _, ⟨hproper, hrestProper⟩, ⟨hkey, hvalue, hrest⟩, _, hfound => by
    have hfirst := hfound (key, value) (List.mem_cons_self ..)
    have hsame := Value.Alike.same hproper hvalue
    have hbehind := Value.AllAlike.sameEntries hrestProper hrest fun entry hentry =>
      hfound entry (List.mem_cons_of_mem _ hentry)
    rw [Value.sameEntries, hkey, hfirst, hbehind, Bool.and_true]
    exact hsame

end

theorem sameAttributes_of_alike {a b : Entries Value} (hdistinct : Entries.Distinct b)
    (hproper : Value.AllProper b) (h : Value.AllAlike a b) : sameAttributes a b = true := by
  have hentries := h.sameEntries hproper fun entry hentry =>
    Entries.find?_eq_some hdistinct hentry
  simp [sameAttributes, h.length_eq, hentries]

mutual

/-- Alike trees have the same structure. -/
theorem Node.Alike.same : {a b : Node} → b.Proper → a.Alike b → a.same b = true
  | ⟨_, _, _, _⟩, ⟨_, _, _, _⟩, ⟨hdistinct, hvalues, hchildren⟩, ⟨htag, hattributes, hinside⟩ => by
    have hsame := sameAttributes_of_alike hdistinct hvalues hattributes
    have hinside := Node.ChildrenAlike.same hchildren hinside
    simp only [Node.same, hsame, hinside, htag, beq_self_eq_true, Bool.and_self]

theorem Node.ChildrenAlike.same : {a b : List (Content Node)} → Node.ChildrenProper b →
    Node.ChildrenAlike a b → Node.sameChildren a b = true
  | [], [], _, _ => rfl
  | .text _ :: rest, .text _ :: others, hproper, ⟨htext, hrest⟩ => by
    have hbehind : Node.sameChildren rest others = true := Node.ChildrenAlike.same hproper hrest
    simp only [Node.sameChildren, htext, beq_self_eq_true, hbehind, Bool.and_self]
  | .expression _ :: rest, .expression _ :: others, hproper, ⟨hsource, hrest⟩ => by
    have hbehind : Node.sameChildren rest others = true := Node.ChildrenAlike.same hproper hrest
    simp only [Node.sameChildren, hsource, beq_self_eq_true, hbehind, Bool.and_self]
  | .node _ :: _, .node _ :: _, ⟨hnode, hproper⟩, ⟨hsame, hrest⟩ => by
    rw [Node.sameChildren, Node.Alike.same hnode hsame, Node.ChildrenAlike.same hproper hrest]
    rfl

end

/-! ## What is alike to a proper tree -/

mutual

theorem Value.Alike.proper : {a b : Value} → b.Proper → a.Alike b → a.Proper
  | .string _, .string _, _, _ => trivial
  | .number _, .number _, _, _ => trivial
  | .boolean _, .boolean _, _, _ => trivial
  | .expression _, .expression _, _, _ => trivial
  | .mapping _, .mapping _, ⟨hdistinct, hproper⟩, h => by
    refine ⟨?_, Value.AllAlike.proper hproper h⟩
    rwa [Entries.Distinct, Value.AllAlike.keys_eq h]

theorem Value.AllAlike.proper : {a b : List (String × Value)} → Value.AllProper b →
    Value.AllAlike a b → Value.AllProper a
  | [], [], _, _ => trivial
  | (_, _) :: _, (_, _) :: _, ⟨hvalue, hrest⟩, ⟨_, halike, hbehind⟩ =>
    ⟨Value.Alike.proper hvalue halike, Value.AllAlike.proper hrest hbehind⟩

end

mutual

/-- What is alike to a proper tree is proper. -/
theorem Node.Alike.proper : {a b : Node} → b.Proper → a.Alike b → a.Proper
  | ⟨_, _, _, _⟩, ⟨_, _, _, _⟩, ⟨hdistinct, hvalues, hchildren⟩, ⟨_, hattributes, hinside⟩ => by
    refine ⟨?_, hattributes.proper hvalues, Node.ChildrenAlike.proper hchildren hinside⟩
    rwa [Entries.Distinct, hattributes.keys_eq]

theorem Node.ChildrenAlike.proper : {a b : List (Content Node)} → Node.ChildrenProper b →
    Node.ChildrenAlike a b → Node.ChildrenProper a
  | [], [], _, _ => trivial
  | .text _ :: rest, .text _ :: others, hproper, ⟨_, hrest⟩ =>
    show Node.ChildrenProper rest from
      Node.ChildrenAlike.proper (show Node.ChildrenProper others from hproper) hrest
  | .expression _ :: rest, .expression _ :: others, hproper, ⟨_, hrest⟩ =>
    show Node.ChildrenProper rest from
      Node.ChildrenAlike.proper (show Node.ChildrenProper others from hproper) hrest
  | .node _ :: _, .node _ :: _, ⟨hnode, hproper⟩, ⟨hsame, hrest⟩ =>
    ⟨Node.Alike.proper hnode hsame, Node.ChildrenAlike.proper hproper hrest⟩

end

/-! ## Attributes that are off -/

/-- Whether an attribute is off. -/
def Value.isOff : Value → Bool
  | .boolean false => true
  | _ => false

/-- The attributes that are not off. -/
def Entries.kept (attributes : Entries Value) : Entries Value :=
  attributes.filter fun entry => !entry.2.isOff

mutual

/-- A tree without the attributes that are off. -/
def Node.withoutOff : Node → Node
  | ⟨tag, attributes, children, id⟩ =>
    ⟨tag, Entries.kept attributes, Node.withoutOffAll children, id⟩

/-- Children without the attributes that are off. -/
def Node.withoutOffAll : List (Content Node) → List (Content Node)
  | [] => []
  | .node node :: rest => .node node.withoutOff :: Node.withoutOffAll rest
  | .text text :: rest => .text text :: Node.withoutOffAll rest
  | .expression source :: rest => .expression source :: Node.withoutOffAll rest

end

mutual

/-- The number of levels of nodes in a tree. -/
def Node.height : Node → Nat
  | ⟨_, _, children, _⟩ => Node.heightAll children + 1

/-- The number of levels of nodes among children. -/
def Node.heightAll : List (Content Node) → Nat
  | [] => 0
  | .node node :: rest => max node.height (Node.heightAll rest)
  | .text _ :: rest => Node.heightAll rest
  | .expression _ :: rest => Node.heightAll rest

end

/-! ## What is read back is alike -/

section Accepts

variable {accepts : String → Prop}

mutual

theorem Value.PrintableWith.proper : {value : Value} → value.PrintableWith accepts → value.Proper
  | .string _, _ => trivial
  | .number _, _ => trivial
  | .boolean _, _ => trivial
  | .expression _, _ => trivial
  | .mapping _, h => ⟨h.1, Value.AllPrintableWith.proper h.2⟩

theorem Value.AllPrintableWith.proper : {entries : List (String × Value)} →
    Value.AllPrintableWith accepts entries → Value.AllProper entries
  | [], _ => trivial
  | _ :: _, h => ⟨h.1.proper, Value.AllPrintableWith.proper h.2⟩

end

mutual

/-- A printable value is read back as an alike one. -/
theorem Value.PrintableWith.alike_reread : {value : Value} → value.PrintableWith accepts →
    value.reread.Alike value
  | .string _, _ => rfl
  | .number _, h => Number.reread_sameValue h.1
  | .boolean _, _ => rfl
  | .expression _, _ => rfl
  | .mapping _, h => Value.AllPrintableWith.alike_rereadAll h.2

theorem Value.AllPrintableWith.alike_rereadAll : {entries : List (String × Value)} →
    Value.AllPrintableWith accepts entries → Value.AllAlike (Value.rereadAll entries) entries
  | [], _ => trivial
  | _ :: _, h => ⟨rfl, h.1.alike_reread, Value.AllPrintableWith.alike_rereadAll h.2⟩

end

theorem Value.AllPrintableWith.filter {test : String × Value → Bool} :
    {entries : List (String × Value)} → Value.AllPrintableWith accepts entries →
    Value.AllPrintableWith accepts (entries.filter test)
  | [], _ => trivial
  | entry :: rest, h => by
    rw [List.filter_cons]
    split
    · exact ⟨h.1, Value.AllPrintableWith.filter h.2⟩
    · exact Value.AllPrintableWith.filter h.2

/-- The attributes that are printed are printable. -/
theorem AttributesPrintableWith.kept {tag : Tag} {attributes : Entries Value}
    (h : AttributesPrintableWith accepts tag attributes) :
    AttributesPrintableWith accepts tag (Entries.kept attributes) where
  distinct := List.Nodup.sublist (List.Sublist.map _ List.filter_sublist) h.distinct
  names entry hentry := h.names entry ((List.mem_filter.mp hentry).1)
  values := h.values.filter
  fragment htag := by rw [h.fragment htag]; rfl

mutual

/-- A printable tree without the attributes that are off is proper. -/
theorem Node.PrintableWith.proper_withoutOff : {node : Node} → node.PrintableWith accepts →
    node.withoutOff.Proper
  | ⟨_, _, _, _⟩, ⟨_, hattributes, hchildren⟩ =>
    ⟨hattributes.kept.distinct, hattributes.kept.values.proper,
      Node.ChildrenPrintableWith.proper_withoutOffAll hchildren⟩

theorem Node.ChildrenPrintableWith.proper_withoutOffAll : {children : List (Content Node)} →
    Node.ChildrenPrintableWith accepts children → Node.ChildrenProper (Node.withoutOffAll children)
  | [], _ => trivial
  | .text _ :: rest, h => (show Node.ChildrenPrintableWith accepts rest from h.2).proper_withoutOffAll
  | .expression _ :: rest, h => (show Node.ChildrenPrintableWith accepts rest from h.2).proper_withoutOffAll
  | .node _ :: rest, h =>
    ⟨h.1.proper_withoutOff, (show Node.ChildrenPrintableWith accepts rest from h.2).proper_withoutOffAll⟩

end

end Accepts

end EditableMarkup
