/-
This file finds the height of a tree by recursion over its nodes. The walk through a
tree keeps the nodes still to be visited in one row, and the deepest node it will meet
lies below one of them.
-/

import ShallowParse.Tree.Walk

namespace ShallowParse

namespace Node

mutual

/-- How far the deepest node below a node lies below it. -/
def height : Node → Nat
  | leaf _ => 0
  | phrase _ children => heightOfAll children

/-- How far the deepest node of a row or below it lies below the node that the row hangs from. -/
def heightOfAll : List Node → Nat
  | [] => 0
  | node :: nodes => max (height node + 1) (heightOfAll nodes)

end

theorem height_eq (node : Node) : node.height = heightOfAll node.children := by
  cases node <;> rfl

end Node

namespace Tree

/-- The depth of the deepest node that a walk meets from a node on that has a certain depth. -/
def reach (visit : Nat × Node) : Nat :=
  visit.1 + visit.2.height

theorem reach_mk (depth : Nat) (node : Node) : reach (depth, node) = depth + node.height := rfl

/-- A row reaches as deep below the node that it hangs from as it is high. -/
theorem foldl_reach_row (depth : Nat) (nodes : List Node) {top : Nat} (within : depth ≤ top) :
    ((nodes.map (depth + 1, ·)).map reach).foldl max top =
      max top (depth + Node.heightOfAll nodes) := by
  induction nodes generalizing top with
  | nil => exact (Nat.max_eq_left within).symm
  | cons node nodes inductionHypothesis =>
    rw [List.map_cons, List.map_cons, List.foldl_cons,
      inductionHypothesis (Nat.le_trans within (Nat.le_max_left _ _)), reach_mk, Node.heightOfAll]
    omega

/-- A walk gets as deep as one of the nodes still to be visited reaches. -/
theorem foldl_walkFrom (pending : List (Nat × Node)) (top : Nat) :
    ((walkFrom pending).map Prod.fst).foldl max top = (pending.map reach).foldl max top := by
  induction pending using walkFrom.induct generalizing top with
  | case1 => rw [walkFrom]; rfl
  | case2 depth node pending inductionHypothesis =>
    rw [walkFrom, List.map_cons, List.foldl_cons, inductionHypothesis, List.map_append,
      List.foldl_append, foldl_reach_row depth _ (Nat.le_max_right _ _), List.map_cons,
      List.foldl_cons, reach_mk, Node.height_eq, Nat.max_assoc,
      Nat.max_eq_right (Nat.le_add_right depth _)]

theorem height_eq (tree : Tree) : tree.height = Node.heightOfAll tree.children := by
  rw [height, walk, foldl_walkFrom, foldl_reach_row 0 _ (Nat.le_refl 0), Nat.zero_max, Nat.zero_add]

end Tree

end ShallowParse
