import EditableMarkup.Tree.Basic

/-!
# Equality of structure

Two trees are the same when they agree in everything but identifiers.  The
order of attributes and of the entries of a mapping does not count, the order
of children does.  Numbers are compared by value.
-/

namespace EditableMarkup

mutual

/-- Whether two attribute values are the same. -/
def Value.same : Value → Value → Bool
  | .string a, .string b => a == b
  | .number a, .number b => a.sameValue b
  | .boolean a, .boolean b => a == b
  | .expression a, .expression b => a == b
  | .mapping a, .mapping b => a.length == b.length && Value.sameEntries a b
  | _, _ => false

/-- Whether all entries of the first list have the same value in the second. -/
def Value.sameEntries : List (String × Value) → Entries Value → Bool
  | [], _ => true
  | (key, value) :: rest, others =>
    (match others.find? key with
      | some other => value.same other
      | none => false) && Value.sameEntries rest others

end

/-- Whether two lists of attributes set the same keys to the same values. -/
def sameAttributes (a b : Entries Value) : Bool :=
  a.length == b.length && Value.sameEntries a b

mutual

/-- Whether two trees have the same structure. -/
def Node.same : Node → Node → Bool
  | ⟨tag, attributes, children, _⟩, other =>
    tag == other.tag && sameAttributes attributes other.attributes &&
      Node.sameChildren children other.children

/-- Whether two lists of children have the same structure. -/
def Node.sameChildren : List (Content Node) → List (Content Node) → Bool
  | [], [] => true
  | .text a :: rest, .text b :: others => a == b && Node.sameChildren rest others
  | .expression a :: rest, .expression b :: others => a == b && Node.sameChildren rest others
  | .node a :: rest, .node b :: others => a.same b && Node.sameChildren rest others
  | _, _ => false

end

end EditableMarkup
