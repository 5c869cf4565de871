/-
This file walks through a tree: every node below the root with its depth, each
node before the nodes below it, from left to right. The children of the root have
depth 1.

The walk keeps the nodes still to be visited in a list, the next one first, and
puts the children of a visited node before them.
-/

import ShallowParse.Tree

namespace ShallowParse.Tree

/-- The number of nodes still to be visited, those below them included. -/
def pendingSize : List (Nat × Node) → Nat
  | [] => 0
  | (_, node) :: pending => node.size + pendingSize pending

theorem pendingSize_children (depth : Nat) (nodes : List Node) (pending : List (Nat × Node)) :
    pendingSize (nodes.map (depth, ·) ++ pending) = Node.sizeOfAll nodes + pendingSize pending := by
  induction nodes with
  | nil => simp [Node.sizeOfAll]
  | cons node nodes inductionHypothesis =>
    simp only [pendingSize, List.map_cons, List.cons_append, Node.sizeOfAll] at *
    omega

theorem sizeOfAll_children_lt (node : Node) : Node.sizeOfAll node.children < node.size := by
  cases node <;> simp [Node.children, Node.sizeOfAll, Node.size]

/-- Visits the pending nodes and all nodes below them. -/
def walkFrom : List (Nat × Node) → List (Nat × Node)
  | [] => []
  | (depth, node) :: pending =>
    (depth, node) :: walkFrom (node.children.map (depth + 1, ·) ++ pending)
termination_by pending => pendingSize pending
decreasing_by
  rw [pendingSize_children]
  have := sizeOfAll_children_lt node
  simp only [pendingSize]
  omega

/-- Every node below the root with its depth. -/
def walk (tree : Tree) : List (Nat × Node) :=
  walkFrom (tree.children.map (1, ·))

/-- Every phrase below the root with the given label. -/
def phrasesLabelled (tree : Tree) (label : String) : List Node :=
  (tree.walk.map Prod.snd).filter fun node => !node.isLeaf && node.symbol == label

/-- The depth of the deepest node, which is 0 for an empty tree. -/
def height (tree : Tree) : Nat :=
  (tree.walk.map Prod.fst).foldl max 0

end ShallowParse.Tree
