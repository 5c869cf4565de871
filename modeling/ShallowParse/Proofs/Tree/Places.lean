/-
This file says where the nodes of a tree stand. The place of a node is the number of
words before it, so a node at a place covers the words from there on, as many as it has.
-/

import ShallowParse.Proofs.Tree.Descendants

namespace ShallowParse

namespace Node

mutual

/-- A node and all nodes below it with their places, given the number of words before the node. -/
def placed (offset : Nat) : Node → List (Nat × Node)
  | leaf token => [(offset, leaf token)]
  | phrase label children => (offset, phrase label children) :: placedOfAll offset children

def placedOfAll (offset : Nat) : List Node → List (Nat × Node)
  | [] => []
  | node :: nodes => placed offset node ++ placedOfAll (offset + node.leafCount) nodes

end

theorem placedOfAll_append (offset : Nat) (before after : List Node) :
    placedOfAll offset (before ++ after) =
      placedOfAll offset before ++ placedOfAll (offset + leafCountOfAll before) after := by
  induction before generalizing offset with
  | nil => rfl
  | cons node rest inductionHypothesis =>
    rw [List.cons_append, placedOfAll, inductionHypothesis, placedOfAll, List.append_assoc,
      leafCountOfAll, Nat.add_assoc]

/-- A phrase around some nodes of a row leaves all nodes at their places. -/
theorem placedOfAll_subset_phrase (offset : Nat) (label : String)
    (before children after : List Node) :
    placedOfAll offset (before ++ children ++ after) ⊆
      placedOfAll offset (before ++ phrase label children :: after) := by
  have sameWords : (phrase label children).leafCount = leafCountOfAll children := rfl
  rw [List.append_assoc, placedOfAll_append, placedOfAll_append, placedOfAll_append, placedOfAll,
    placed, sameWords]
  refine List.append_subset.mpr ⟨List.subset_append_left _ _, ?_⟩
  exact List.Subset.trans (List.subset_cons_self _ _) (List.subset_append_right _ _)

end Node

/-- All nodes below the root of a tree, with their places. -/
def Tree.placed (tree : Tree) : List (Nat × Node) :=
  Node.placedOfAll 0 tree.children

end ShallowParse
