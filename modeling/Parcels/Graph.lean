/-!
# Walks through finite graphs

A graph is given by the successors of each node, in order.  Every walk takes a
bound on its depth; the number of nodes is always enough.
-/

namespace Parcels.Graph

variable {Node : Type} [DecidableEq Node]

/-- The successors of a level that have not been seen, each once, in the order
in which they are met. -/
def nextLevel (successors : Node → List Node) (seen level : List Node) :
    List Node :=
  ((level.flatMap successors).filter fun node => !seen.contains node).eraseDups

/-- The levels of a breadth-first search. -/
def levels (successors : Node → List Node) :
    (bound : Nat) → (seen level : List Node) → List (List Node)
  | 0, _, _ => []
  | _ + 1, _, [] => []
  | bound + 1, seen, level =>
      let next := nextLevel successors seen level
      level :: levels successors bound (seen ++ next) next

/-- The nodes reachable from `start`, nearer ones first. -/
def breadthFirst (successors : Node → List Node) (bound : Nat) (start : Node) :
    List Node :=
  (levels successors bound [start] [start]).flatten

/-- A node, then the preorders of its successors.  Nothing is remembered, so
this is for forests. -/
def preorder {Node : Type} (successors : Node → List Node) :
    (bound : Nat) → Node → List Node
  | 0, _ => []
  | bound + 1, node =>
      node :: (successors node).flatMap (preorder successors bound)

/-- A depth-first search under way: the nodes entered and, in order, the nodes
left. -/
structure Visit (Node : Type) where
  entered : List Node := []
  left : List Node := []

/-- Visit what a node leads to and then leave the node itself. -/
def visit (successors : Node → List Node) :
    (bound : Nat) → Visit Node → Node → Visit Node
  | 0, state, _ => state
  | bound + 1, state, node =>
      if node ∈ state.entered then state
      else
        let inner := (successors node).foldl (visit successors bound)
          { state with entered := node :: state.entered }
        { inner with left := inner.left ++ [node] }

/-- The nodes reachable from the given ones, each after its successors if the
graph has no cycle. -/
def postorder (successors : Node → List Node) (bound : Nat)
    (nodes : List Node) : List Node :=
  (nodes.foldl (visit successors bound) {}).left

end Parcels.Graph
