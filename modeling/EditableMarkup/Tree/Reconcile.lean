import EditableMarkup.Tree.Basic

/-!
# Reconciling identifiers

A tree that was parsed anew takes over the identifiers of an earlier tree: a
node keeps the earlier identifier when it stands at the same path, with the
same tags all the way down to it.
-/

namespace EditableMarkup.Node

mutual

/-- The second tree with the identifiers of the first where both agree. -/
def reconcile (previous : Node) : Node → Node
  | ⟨tag, attributes, children, id⟩ =>
    if previous.tag = tag then
      ⟨tag, attributes, reconcileChildren previous.children children, previous.id⟩
    else ⟨tag, attributes, children, id⟩

/-- Children with the identifiers of earlier children at the same positions. -/
def reconcileChildren : List (Content Node) → List (Content Node) → List (Content Node)
  | _, [] => []
  | [], children => children
  | .node earlier :: previous, .node node :: rest =>
    .node (reconcile earlier node) :: reconcileChildren previous rest
  | _ :: previous, child :: rest => child :: reconcileChildren previous rest

end

mutual

/-- The second tree with the identifiers of the first, where every node that takes one over is made
anew and may be refused. -/
def reconcileMade (previous : Node) : Node → Except Fault Node
  | ⟨tag, attributes, children, id⟩ =>
    if previous.tag = tag then do
      let children ← reconcileMadeChildren previous.children children
      make tag attributes children previous.id
    else .ok ⟨tag, attributes, children, id⟩

/-- Children with the identifiers of earlier children, made anew. -/
def reconcileMadeChildren :
    List (Content Node) → List (Content Node) → Except Fault (List (Content Node))
  | _, [] => .ok []
  | [], children => .ok children
  | .node earlier :: previous, .node node :: rest => do
    let node ← reconcileMade earlier node
    return .node node :: (← reconcileMadeChildren previous rest)
  | _ :: previous, child :: rest => do
    return child :: (← reconcileMadeChildren previous rest)

end

end EditableMarkup.Node
