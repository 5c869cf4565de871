/-
This file defines all nodes of a tree and proves how the words and the nodes of a
row of nodes are made up of those of its parts.
-/

import ShallowParse.Proofs.Rows
import ShallowParse.Tree

namespace ShallowParse

namespace Node

mutual

/-- A node and all nodes below it, each before those below it. -/
def withDescendants : Node → List Node
  | leaf token => [leaf token]
  | phrase label children => phrase label children :: descendantsOfAll children

def descendantsOfAll : List Node → List Node
  | [] => []
  | node :: nodes => withDescendants node ++ descendantsOfAll nodes

end

end Node

/-- All nodes below the root of a tree. -/
def Tree.nodes (tree : Tree) : List Node :=
  Node.descendantsOfAll tree.children

namespace Node

/-! ### Words -/

theorem leavesOfAll_eq_flatMap (nodes : List Node) : leavesOfAll nodes = nodes.flatMap leaves :=
  eq_flatMap_of_cons rfl (fun _ _ => rfl) nodes

theorem leavesOfAll_append (before after : List Node) :
    leavesOfAll (before ++ after) = leavesOfAll before ++ leavesOfAll after := by
  simp only [leavesOfAll_eq_flatMap, List.flatMap_append]

/-- The words of a row are those of its first nodes and those of the others. -/
theorem leavesOfAll_take_drop (count : Nat) (nodes : List Node) :
    leavesOfAll (nodes.take count) ++ leavesOfAll (nodes.drop count) = leavesOfAll nodes := by
  rw [← leavesOfAll_append, List.take_append_drop]

theorem leavesOfAll_map_leaf (tokens : List Token) : leavesOfAll (tokens.map leaf) = tokens := by
  rw [leavesOfAll_eq_flatMap, List.flatMap_map]
  exact List.flatMap_singleton' tokens

mutual

theorem length_leaves : (node : Node) → node.leaves.length = node.leafCount
  | leaf _ => rfl
  | phrase _ children => length_leavesOfAll children

/-- There are as many words in a row as are counted in it. -/
theorem length_leavesOfAll : (nodes : List Node) →
    (leavesOfAll nodes).length = leafCountOfAll nodes
  | [] => rfl
  | node :: nodes => by
    rw [leavesOfAll, List.length_append, length_leaves node, length_leavesOfAll nodes,
      leafCountOfAll]

end

theorem leafCountOfAll_append (before after : List Node) :
    leafCountOfAll (before ++ after) = leafCountOfAll before + leafCountOfAll after := by
  rw [← length_leavesOfAll, leavesOfAll_append, List.length_append, length_leavesOfAll,
    length_leavesOfAll]

/-! ### Descendants -/

theorem descendantsOfAll_eq_flatMap (nodes : List Node) :
    descendantsOfAll nodes = nodes.flatMap withDescendants :=
  eq_flatMap_of_cons rfl (fun _ _ => rfl) nodes

theorem descendantsOfAll_append (before after : List Node) :
    descendantsOfAll (before ++ after) = descendantsOfAll before ++ descendantsOfAll after := by
  simp only [descendantsOfAll_eq_flatMap, List.flatMap_append]

theorem descendantsOfAll_map_leaf (tokens : List Token) :
    descendantsOfAll (tokens.map leaf) = tokens.map leaf := by
  rw [descendantsOfAll_eq_flatMap, List.flatMap_map]
  exact List.map_eq_flatMap.symm

/-- The nodes of a row and those below them are the nodes of each of its nodes. -/
theorem mem_descendantsOfAll_iff_exists {nodes : List Node} {node : Node} :
    node ∈ descendantsOfAll nodes ↔ ∃ ancestor ∈ nodes, node ∈ ancestor.withDescendants := by
  rw [descendantsOfAll_eq_flatMap, List.mem_flatMap]

theorem mem_withDescendants_self (node : Node) : node ∈ node.withDescendants := by
  cases node <;> exact List.mem_cons_self

theorem mem_descendantsOfAll {nodes : List Node} {node : Node} (member : node ∈ nodes) :
    node ∈ descendantsOfAll nodes :=
  mem_descendantsOfAll_iff_exists.mpr ⟨node, member, mem_withDescendants_self node⟩

/-- What holds of all nodes from a phrase on down holds of the phrase and, for each of its children,
of all nodes from the child on down. -/
theorem forall_mem_withDescendants_phrase {Holds : Node → Prop} {label : String}
    {children : List Node} :
    (∀ below ∈ (phrase label children).withDescendants, Holds below) ↔
      Holds (phrase label children) ∧
        ∀ child ∈ children, ∀ below ∈ child.withDescendants, Holds below := by
  rw [withDescendants, List.forall_mem_cons]
  refine and_congr_right fun _ => ⟨fun holds child isChild below isBelow => ?_,
    fun holds below isBelow => ?_⟩
  · exact holds below (mem_descendantsOfAll_iff_exists.mpr ⟨child, isChild, isBelow⟩)
  · obtain ⟨child, isChild, isFound⟩ := mem_descendantsOfAll_iff_exists.mp isBelow
    exact holds child isChild below isFound

/-- The nodes of the first nodes of a row are nodes of the row, and so are those of the others. -/
theorem mem_descendantsOfAll_iff (count : Nat) (nodes : List Node) (node : Node) :
    node ∈ descendantsOfAll nodes ↔
      node ∈ descendantsOfAll (nodes.take count) ∨ node ∈ descendantsOfAll (nodes.drop count) := by
  rw [← List.mem_append, ← descendantsOfAll_append, List.take_append_drop]

mutual

/-- The words of a node are nodes from it on down. -/
theorem leaf_mem_withDescendants {token : Token} (node : Node) (member : token ∈ node.leaves) :
    leaf token ∈ node.withDescendants := by
  match node with
  | leaf other =>
    obtain rfl := List.mem_singleton.mp member
    exact List.mem_singleton_self _
  | phrase label children =>
    exact List.mem_cons_of_mem _ (leaf_mem_descendantsOfAll children member)

theorem leaf_mem_descendantsOfAll {token : Token} (nodes : List Node)
    (member : token ∈ leavesOfAll nodes) : leaf token ∈ descendantsOfAll nodes := by
  match nodes with
  | [] => cases member
  | node :: nodes =>
    rw [descendantsOfAll, List.mem_append]
    exact (List.mem_append.mp member).imp (leaf_mem_withDescendants node)
      (leaf_mem_descendantsOfAll nodes)

end

/-- The phrases among the nodes of a row and the nodes below them. -/
def phrasesOfAll (nodes : List Node) : List Node :=
  (descendantsOfAll nodes).filter (!·.isLeaf)

theorem phrasesOfAll_append (before after : List Node) :
    phrasesOfAll (before ++ after) = phrasesOfAll before ++ phrasesOfAll after := by
  rw [phrasesOfAll, descendantsOfAll_append, List.filter_append]
  rfl

theorem phrasesOfAll_map_leaf (tokens : List Token) : phrasesOfAll (tokens.map leaf) = [] := by
  rw [phrasesOfAll, descendantsOfAll_map_leaf, List.filter_eq_nil_iff]
  intro node member
  obtain ⟨token, _, rfl⟩ := List.mem_map.mp member
  exact Bool.false_ne_true

end Node

/-- The phrases below the root of a tree. -/
def Tree.phrases (tree : Tree) : List Node :=
  Node.phrasesOfAll tree.children

end ShallowParse
