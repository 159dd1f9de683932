import EditableMarkup.Tree.Basic

/-!
# Locating nodes

The nodes of a tree are listed in pre-order.  An identifier stands for the
first node that carries it.  A path gives the positions of children from the
root on, in which texts and expressions count as positions too.  The search for
a path can start behind positions that are already passed.
-/

namespace EditableMarkup

namespace Node

mutual

/-- All nodes of a tree, each before the nodes below it. -/
def nodes : Node → List Node
  | ⟨tag, attributes, children, id⟩ => ⟨tag, attributes, children, id⟩ :: nodesIn children

/-- All nodes of children. -/
def nodesIn : List (Content Node) → List Node
  | [] => []
  | .node node :: rest => nodes node ++ nodesIn rest
  | _ :: rest => nodesIn rest

end

/-- The first node with an identifier. -/
def find? (tree : Node) (id : String) : Option Node :=
  tree.nodes.find? fun node => node.id == id

mutual

/-- The path to the first node with an identifier. -/
def path? (id : String) : Node → Option (List Nat)
  | ⟨_, _, children, own⟩ => if own = id then some [] else pathIn? id 0 children

/-- The path to the first node with an identifier among children, of which the first has a given
position. -/
def pathIn? (id : String) (position : Nat) : List (Content Node) → Option (List Nat)
  | [] => none
  | .node node :: rest =>
    match path? id node with
    | some path => some (position :: path)
    | none => pathIn? id (position + 1) rest
  | _ :: rest => pathIn? id (position + 1) rest

end

mutual

/-- The path to the first node with an identifier, behind the positions that were passed. -/
def pathBehind? (passed : List Nat) (id : String) : Node → Option (List Nat)
  | ⟨_, _, children, own⟩ => if own = id then some passed else pathBehindIn? passed id 0 children

/-- The path to the first node with an identifier among children, of which the first has a given
position. -/
def pathBehindIn? (passed : List Nat) (id : String) (position : Nat) :
    List (Content Node) → Option (List Nat)
  | [] => none
  | .node node :: rest =>
    match pathBehind? (passed ++ [position]) id node with
    | some path => some path
    | none => pathBehindIn? passed id (position + 1) rest
  | _ :: rest => pathBehindIn? passed id (position + 1) rest

end

/-- The node at the end of a path. -/
def at? (tree : Node) : List Nat → Option Node
  | [] => some tree
  | position :: path =>
    match tree.children[position]? with
    | some (.node child) => child.at? path
    | _ => none

end Node

end EditableMarkup
