/-
This file proves that the walk through a tree is its recursive preorder, and what the questions
that are answered by walking find in it: words, height, and phrases with a label. A walk may keep
the nodes still to be visited on a stack, whose last entry is on top. Every step takes the node
on top away and puts its children there from right to left, and what is still to be visited is
the stack read from its top.
-/

import Mathlib.Data.List.Forall2
import ShallowParse.Proofs.Tree.Addresses
import ShallowParse.Proofs.Tree.Height

namespace ShallowParse

namespace Node

/-! ### Preorder -/

mutual

/-- A node at a depth and all nodes below it with their depths, each before those below it. -/
def preorder (depth : Nat) : Node → List (Nat × Node)
  | leaf token => [(depth, leaf token)]
  | phrase label children => (depth, phrase label children) :: preorderOfAll (depth + 1) children

def preorderOfAll (depth : Nat) : List Node → List (Nat × Node)
  | [] => []
  | node :: nodes => preorder depth node ++ preorderOfAll depth nodes

end

mutual

/-- The depth of a node is the length of its address. -/
theorem map_addressed (depth : Nat) (node : Node) :
    node.addressed.map (fun visit => (depth + visit.1.length, visit.2)) = node.preorder depth := by
  match node with
  | leaf token => rfl
  | phrase label children =>
    rw [addressed, List.map_cons, map_addressedFrom depth 0 children, preorder]
    rfl

theorem map_addressedFrom (depth start : Nat) (nodes : List Node) :
    (addressedFrom start nodes).map (fun visit => (depth + visit.1.length, visit.2)) =
      preorderOfAll (depth + 1) nodes := by
  match nodes with
  | [] => rfl
  | node :: nodes =>
    rw [addressedFrom, List.map_append, map_addressedFrom depth (start + 1) nodes, List.map_map,
      preorderOfAll, ← map_addressed (depth + 1) node]
    refine congrArg (· ++ _) (List.map_congr_left fun visit _ => ?_)
    rw [Function.comp_apply, List.length_cons, Nat.add_right_comm, ← Nat.add_assoc]

end

/-! ### Words -/

mutual

/-- The words of a node are the nodes from it on down that are no phrases. -/
theorem filter_isLeaf_withDescendants (node : Node) :
    node.withDescendants.filter isLeaf = node.leaves.map leaf := by
  match node with
  | leaf token => rfl
  | phrase label children => exact filter_isLeaf_descendantsOfAll children

theorem filter_isLeaf_descendantsOfAll (nodes : List Node) :
    (descendantsOfAll nodes).filter isLeaf = (leavesOfAll nodes).map leaf := by
  match nodes with
  | [] => rfl
  | node :: nodes =>
    rw [descendantsOfAll, List.filter_append, filter_isLeaf_withDescendants node,
      filter_isLeaf_descendantsOfAll nodes, leavesOfAll, List.map_append]

end

end Node

namespace Tree

/-! ### The stack -/

/-- A step of a walk: the node on top of the stack is visited and makes room for its children, the
first of which comes to the top. -/
def step? (stack : List (Nat × Node)) : Option ((Nat × Node) × List (Nat × Node)) :=
  stack.getLast?.map fun visit =>
    (visit, stack.dropLast ++ (visit.2.children.map (visit.1 + 1, ·)).reverse)

/-- Whether steps lead from one stack to another and visit these nodes on the way. -/
inductive Steps : List (Nat × Node) → List (Nat × Node) → List (Nat × Node) → Prop where
  | none (stack : List (Nat × Node)) : Steps stack [] stack
  | more {stack between last visits : List (Nat × Node)} {visit : Nat × Node}
    (step : step? stack = some (visit, between)) (others : Steps between visits last) :
    Steps stack (visit :: visits) last

theorem step?_reverse_cons (depth : Nat) (node : Node) (pending : List (Nat × Node)) :
    step? ((depth, node) :: pending).reverse =
      some ((depth, node), (node.children.map (depth + 1, ·) ++ pending).reverse) := by
  rw [step?, List.reverse_cons, List.getLast?_concat, List.dropLast_concat, List.reverse_append]
  rfl

theorem step?_eq_none_iff {stack : List (Nat × Node)} : step? stack = none ↔ stack = [] := by
  rw [step?, Option.map_eq_none_iff, List.getLast?_eq_none_iff]

/-- A step visits what a walk visits first, and leaves what it visits then. -/
theorem walkFrom_of_step {stack rest : List (Nat × Node)} {visit : Nat × Node}
    (step : step? stack = some (visit, rest)) :
    walkFrom stack.reverse = visit :: walkFrom rest.reverse := by
  rw [← List.reverse_reverse stack] at step
  cases isPending : stack.reverse with
  | nil =>
    rw [isPending] at step
    cases step
  | cons top pending =>
    rw [isPending, step?_reverse_cons] at step
    cases step
    rw [walkFrom, List.reverse_reverse]

theorem Steps.walkFrom_eq {stack visits last : List (Nat × Node)}
    (steps : Steps stack visits last) :
    walkFrom stack.reverse = visits ++ walkFrom last.reverse := by
  induction steps with
  | none stack => rfl
  | more step _ inductionHypothesis =>
    rw [walkFrom_of_step step, inductionHypothesis, List.cons_append]

/-- A walk empties the stack. -/
theorem steps_walkFrom (pending : List (Nat × Node)) :
    Steps pending.reverse (walkFrom pending) [] := by
  induction pending using walkFrom.induct with
  | case1 =>
    rw [walkFrom]
    exact .none []
  | case2 depth node pending inductionHypothesis =>
    rw [walkFrom]
    exact .more (step?_reverse_cons depth node pending) inductionHypothesis

/-- Steps go on until the stack is empty, and they have then visited what a walk visits. -/
theorem exists_steps_iff {stack visits : List (Nat × Node)} :
    (∃ last, Steps stack visits last ∧ step? last = none) ↔ visits = walkFrom stack.reverse := by
  constructor
  · rintro ⟨last, steps, isLast⟩
    obtain rfl := step?_eq_none_iff.mp isLast
    rw [steps.walkFrom_eq, List.reverse_nil, walkFrom, List.append_nil]
  · rintro rfl
    have steps := steps_walkFrom stack.reverse
    rw [List.reverse_reverse] at steps
    exact ⟨[], steps, rfl⟩

/-! ### What a walk finds -/

theorem walk_eq_preorder (tree : Tree) : tree.walk = Node.preorderOfAll 1 tree.children := by
  rw [walk_eq, visits, ← Node.map_addressedFrom 0 0 tree.children]
  simp only [Nat.zero_add]

theorem map_snd_walk (tree : Tree) : tree.walk.map Prod.snd = tree.nodes := by
  rw [walk_eq, List.map_map, nodes, ← Node.map_snd_addressedFrom 0]
  rfl

/-- The words are met in the order of the sentence. -/
theorem filter_isLeaf_walk (tree : Tree) :
    (tree.walk.map Prod.snd).filter Node.isLeaf = tree.leaves.map Node.leaf := by
  rw [map_snd_walk]
  exact Node.filter_isLeaf_descendantsOfAll tree.children

theorem isPhraseLabelled_iff {node : Node} {label : String} :
    (!node.isLeaf && node.symbol == label) = true ↔ ∃ children, node = .phrase label children := by
  cases node with
  | leaf token => simp [Node.isLeaf]
  | phrase other children =>
    rw [Node.isLeaf, Node.symbol, Bool.not_false, Bool.true_and, beq_iff_eq]
    constructor
    · rintro rfl
      exact ⟨children, rfl⟩
    · rintro ⟨others, same⟩
      exact (Node.phrase.inj same).1

/-- Whether nodes are all those at which a phrase with a label stands below the root, in the order
of their addresses and one for each. -/
def ArePhrasesLabelled (tree : Tree) (label : String) (nodes : List Node) : Prop :=
  ∃ addresses : List (List Nat), addresses.Pairwise (· < ·) ∧
    (∀ address, address ∈ addresses ↔
      address ≠ [] ∧ ∃ children, tree.root.descendant? address = some (.phrase label children)) ∧
    List.Forall₂ (fun address node => tree.root.descendant? address = some node) addresses nodes

theorem arePhrasesLabelled (tree : Tree) (label : String) :
    tree.ArePhrasesLabelled label (tree.phrasesLabelled label) := by
  let isFound (visit : List Nat × Node) : Bool := !visit.2.isLeaf && visit.2.symbol == label
  have areFound : tree.phrasesLabelled label = (tree.visits.filter isFound).map Prod.snd := by
    rw [phrasesLabelled, walk_eq, List.map_map, List.filter_map]
    rfl
  have isAscending := Node.pairwise_addressedFrom 0 tree.children
  refine ⟨(tree.visits.filter isFound).map Prod.fst,
    isAscending.sublist (List.filter_sublist.map Prod.fst), fun address => ?_, ?_⟩
  · rw [List.mem_map]
    constructor
    · rintro ⟨⟨_, node⟩, isVisit, rfl⟩
      obtain ⟨isVisited, isLabelled⟩ := List.mem_filter.mp isVisit
      obtain ⟨isBelow, found⟩ := mem_visits_iff.mp isVisited
      obtain ⟨children, rfl⟩ := isPhraseLabelled_iff.mp isLabelled
      exact ⟨isBelow, children, found⟩
    · rintro ⟨isBelow, children, found⟩
      refine ⟨(address, .phrase label children), List.mem_filter.mpr ⟨?_, ?_⟩, rfl⟩
      · exact mem_visits_iff.mpr ⟨isBelow, found⟩
      · exact isPhraseLabelled_iff.mpr ⟨children, rfl⟩
  · rw [areFound, List.forall₂_map_left_iff, List.forall₂_map_right_iff, List.forall₂_same]
    exact fun visit isVisit => (mem_visits_iff.mp (List.mem_filter.mp isVisit).1).2

/-- Walking through a tree with a stack comes to an end and visits the nodes below the root in
recursive preorder, and so does the walk. It meets the words in order, as many as are counted, and
just the phrases that have a label. The greatest depth is the height of the tree. -/
theorem walk_is_preorder (tree : Tree) :
    (∀ visits, (∃ last, Steps (tree.children.map (1, ·)).reverse visits last ∧ step? last = none) ↔
      visits = Node.preorderOfAll 1 tree.children) ∧
    tree.walk = Node.preorderOfAll 1 tree.children ∧
    (tree.walk.map Prod.snd).filter Node.isLeaf = tree.leaves.map Node.leaf ∧
    (tree.walk.countP fun visit => visit.2.isLeaf) = tree.leafCount ∧
    tree.height = Node.heightOfAll tree.children ∧
    ∀ label, tree.ArePhrasesLabelled label (tree.phrasesLabelled label) := by
  refine ⟨fun visits => ?_, tree.walk_eq_preorder, tree.filter_isLeaf_walk, ?_, tree.height_eq,
    tree.arePhrasesLabelled⟩
  · rw [exists_steps_iff, List.reverse_reverse, ← tree.walk_eq_preorder, walk]
  · have sameLength := congrArg List.length tree.filter_isLeaf_walk
    rw [← List.countP_eq_length_filter, List.countP_map, List.length_map] at sameLength
    exact sameLength.trans (Node.length_leaves tree.root)

end Tree

end ShallowParse
