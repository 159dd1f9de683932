import EditableMarkup.Tree.Same

/-!
# Digests and sets

A set looks its elements up by a digest and then by their structure.  The digest
of a tree leaves out identifiers, and gathers attributes and the entries of
mappings without regard to their order.  Numbers have the digest of their exact
value, as a fraction modulo the prime `2 ^ 61 - 1`.
-/

namespace EditableMarkup

/-- The digests that do not depend on trees: of texts, of tuples and of collections without an
order, each from the digests of its parts, and of what is not a number. -/
structure Hashing where
  text : String → Int
  tuple : List Int → Int
  collection : List Int → Int
  notANumber : Int
  collection_perm : ∀ {parts others : List Int}, parts.Perm others →
    collection parts = collection others

namespace Number

/-- The prime by which the digests of numbers are reduced. -/
def digestPrime : Nat := Nat.pow 2 61 - 1

/-- The digest of a finite number. As `2 ^ 61` leaves the remainder one, `2 ^ (-1074)` is the same
as `2 ^ 24`; minus one is kept for failures. -/
def unitsDigest (units : Int) : Int :=
  let remainder : Int := (units.natAbs * Nat.pow 2 24 % digestPrime : Nat)
  let digest := if units < 0 then -remainder else remainder
  if digest = -1 then -2 else digest

/-- The digest of a number. -/
def digest (hashing : Hashing) (number : Number) : Int :=
  match number.units? with
  | some units => unitsDigest units
  | none =>
    match number with
    | real (.infinite negative) => if negative then -314159 else 314159
    | _ => hashing.notANumber

end Number

mutual

/-- The digest of an attribute value. -/
def Value.digest (hashing : Hashing) : Value → Int
  | .string text => hashing.tuple [hashing.text text]
  | .number value => hashing.tuple [value.digest hashing]
  | .boolean value => hashing.tuple [if value then 1 else 0]
  | .expression source => hashing.tuple [hashing.text source]
  | .mapping entries => hashing.collection (Value.entryDigests hashing entries)

/-- The digests of entries. -/
def Value.entryDigests (hashing : Hashing) : List (String × Value) → List Int
  | [] => []
  | (key, value) :: rest =>
    hashing.tuple [hashing.text key, value.digest hashing] :: Value.entryDigests hashing rest

end

/-- The digest of a tag. -/
def Tag.digest (hashing : Hashing) : Tag → Int
  | .fragment => hashing.tuple []
  | .named name => hashing.text name

mutual

/-- The digest of a tree. -/
def Node.digest (hashing : Hashing) : Node → Int
  | ⟨tag, attributes, children, _⟩ =>
    hashing.tuple
      [tag.digest hashing, hashing.collection (Value.entryDigests hashing attributes),
        hashing.tuple (Node.childDigests hashing children)]

/-- The digests of children. -/
def Node.childDigests (hashing : Hashing) : List (Content Node) → List Int
  | [] => []
  | .text text :: rest => hashing.tuple [hashing.text text] :: Node.childDigests hashing rest
  | .expression source :: rest =>
    hashing.tuple [hashing.text source] :: Node.childDigests hashing rest
  | .node node :: rest => node.digest hashing :: Node.childDigests hashing rest

end

namespace Node

/-- Whether a set holds a tree. -/
def isIn (hashing : Hashing) (tree : Node) (set : List Node) : Bool :=
  set.any fun member => member.digest hashing == tree.digest hashing && member.same tree

/-- Add a tree to a set. -/
def addTo (hashing : Hashing) (set : List Node) (tree : Node) : List Node :=
  if tree.isIn hashing set then set else set ++ [tree]

/-- The set of some trees. -/
def setOf (hashing : Hashing) (trees : List Node) : List Node :=
  trees.foldl (addTo hashing) []

end Node

end EditableMarkup
