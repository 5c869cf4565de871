/-
This file finds the nodes below a node by their addresses. An address says, level by level,
which child to go to. The addresses of all nodes in increasing order, each before its
continuations, are the order of the walk through a tree, and the length of an address is the
depth that the walk gives the node.
-/

import Mathlib.Data.List.Basic
import ShallowParse.Proofs.Tree.Descendants
import ShallowParse.Tree.Walk

namespace ShallowParse

namespace Node

/-- The node at an address below a node. -/
def descendant? (node : Node) : List Nat → Option Node
  | [] => some node
  | turn :: rest => node.children[turn]?.bind fun child => child.descendant? rest

theorem descendant?_append (node : Node) (first second : List Nat) :
    node.descendant? (first ++ second) =
      (node.descendant? first).bind fun below => below.descendant? second := by
  induction first generalizing node with
  | nil => rfl
  | cons turn rest inductionHypothesis =>
    rw [List.cons_append, descendant?, descendant?]
    cases node.children[turn]? with
    | none => rfl
    | some child => exact inductionHypothesis child

/-- One more turn leads to a child. -/
theorem descendant?_concat {node below : Node} {address : List Nat}
    (found : node.descendant? address = some below) (turn : Nat) :
    node.descendant? (address ++ [turn]) = below.children[turn]? := by
  rw [descendant?_append, found, Option.bind_some, descendant?]
  cases below.children[turn]? <;> rfl

mutual

/-- A node and all nodes below it with their addresses, each before those below it. -/
def addressed : Node → List (List Nat × Node)
  | leaf token => [([], leaf token)]
  | phrase label children => ([], phrase label children) :: addressedFrom 0 children

/-- The nodes of a row and all nodes below them, where one turns to the first of the row with the
given turn. -/
def addressedFrom (turn : Nat) : List Node → List (List Nat × Node)
  | [] => []
  | node :: nodes =>
    node.addressed.map (fun visit => (turn :: visit.1, visit.2)) ++ addressedFrom (turn + 1) nodes

end

/-! ### All addresses -/

mutual

/-- A node is listed with the addresses where it is found. -/
theorem mem_addressed_iff (node : Node) {address : List Nat} {other : Node} :
    (address, other) ∈ node.addressed ↔ node.descendant? address = some other := by
  match node, address with
  | leaf token, [] =>
    rw [addressed, List.mem_singleton, descendant?, Option.some_inj]
    exact ⟨fun same => (Prod.mk.inj same).2.symm, fun same => same ▸ rfl⟩
  | leaf token, turn :: rest =>
    rw [addressed, List.mem_singleton]
    exact ⟨nofun, nofun⟩
  | phrase label children, [] =>
    rw [addressed, List.mem_cons, mem_addressedFrom_iff children, descendant?, Option.some_inj]
    refine ⟨?_, fun same => Or.inl (same ▸ rfl)⟩
    rintro (same | ⟨_, _, _, isLonger, _⟩)
    · exact (Prod.mk.inj same).2.symm
    · cases isLonger
  | phrase label children, turn :: rest =>
    rw [addressed, List.mem_cons, mem_addressedFrom_iff children, descendant?,
      Option.bind_eq_some_iff]
    constructor
    · rintro (same | ⟨_, _, child, same, isChild, found⟩)
      · cases same
      · rw [Nat.zero_add] at same
        cases same
        exact ⟨child, isChild, found⟩
    · rintro ⟨child, isChild, found⟩
      exact Or.inr ⟨turn, rest, child, by rw [Nat.zero_add], isChild, found⟩

theorem mem_addressedFrom_iff (nodes : List Node) {start : Nat} {address : List Nat}
    {other : Node} :
    (address, other) ∈ addressedFrom start nodes ↔
      ∃ turn rest child, address = (start + turn) :: rest ∧ nodes[turn]? = some child ∧
        child.descendant? rest = some other := by
  match nodes with
  | [] => exact ⟨nofun, fun ⟨_, _, _, _, noChild, _⟩ => nomatch noChild⟩
  | node :: nodes =>
    rw [addressedFrom, List.mem_append, List.mem_map, mem_addressedFrom_iff nodes]
    constructor
    · rintro (⟨⟨rest, found⟩, member, same⟩ | ⟨turn, rest, child, same, isChild, found⟩)
      · cases same
        exact ⟨0, rest, node, rfl, rfl, (mem_addressed_iff node).mp member⟩
      · exact ⟨turn + 1, rest, child, by rw [same, Nat.add_assoc, Nat.add_comm 1], isChild, found⟩
    · rintro ⟨turn, rest, child, same, isChild, found⟩
      cases turn with
      | zero =>
        cases isChild
        exact Or.inl ⟨(rest, other), (mem_addressed_iff node).mpr found, by rw [same]; rfl⟩
      | succ turn =>
        have sameTurn : address = (start + 1 + turn) :: rest := by
          rw [same, Nat.add_assoc, Nat.add_comm 1]
        exact Or.inr ⟨turn, rest, child, sameTurn, isChild, found⟩

end

mutual

/-- The addresses are listed in increasing order. -/
theorem pairwise_addressed (node : Node) : (node.addressed.map Prod.fst).Pairwise (· < ·) := by
  match node with
  | leaf token => exact List.pairwise_singleton _ _
  | phrase label children =>
    rw [addressed, List.map_cons, List.pairwise_cons]
    refine ⟨?_, pairwise_addressedFrom 0 children⟩
    intro address member
    obtain ⟨⟨_, other⟩, isListed, rfl⟩ := List.mem_map.mp member
    obtain ⟨turn, rest, _, rfl, _⟩ := (mem_addressedFrom_iff children).mp isListed
    exact List.nil_lt_cons _ _

theorem pairwise_addressedFrom (start : Nat) (nodes : List Node) :
    ((addressedFrom start nodes).map Prod.fst).Pairwise (· < ·) := by
  match nodes with
  | [] => exact List.Pairwise.nil
  | node :: nodes =>
    rw [addressedFrom, List.map_append, List.map_map, List.pairwise_append]
    refine ⟨?_, pairwise_addressedFrom (start + 1) nodes, ?_⟩
    · have ofNode := pairwise_addressed node
      rw [List.pairwise_map] at ofNode ⊢
      exact ofNode.imp fun isLess => List.cons_lt_cons_iff.mpr (Or.inr ⟨rfl, isLess⟩)
    · intro first ofFirst second ofSecond
      obtain ⟨⟨rest, _⟩, _, rfl⟩ := List.mem_map.mp ofFirst
      obtain ⟨⟨_, other⟩, isListed, rfl⟩ := List.mem_map.mp ofSecond
      obtain ⟨turn, _, _, rfl, _⟩ := (mem_addressedFrom_iff nodes).mp isListed
      exact List.cons_lt_cons_iff.mpr (Or.inl (by omega))

end

mutual

theorem map_snd_addressed (node : Node) : node.addressed.map Prod.snd = node.withDescendants := by
  match node with
  | leaf token => rfl
  | phrase label children =>
    rw [addressed, List.map_cons, map_snd_addressedFrom 0 children, withDescendants]

theorem map_snd_addressedFrom (start : Nat) (nodes : List Node) :
    (addressedFrom start nodes).map Prod.snd = descendantsOfAll nodes := by
  match nodes with
  | [] => rfl
  | node :: nodes =>
    rw [addressedFrom, List.map_append, List.map_map, map_snd_addressedFrom (start + 1) nodes,
      descendantsOfAll, ← map_snd_addressed node]
    rfl

end

/-- The nodes from a node on down are those at its addresses. -/
theorem mem_withDescendants_iff {node other : Node} :
    other ∈ node.withDescendants ↔ ∃ address, node.descendant? address = some other := by
  rw [← map_snd_addressed, List.mem_map]
  constructor
  · rintro ⟨⟨address, _⟩, isListed, rfl⟩
    exact ⟨address, (mem_addressed_iff node).mp isListed⟩
  · rintro ⟨address, found⟩
    exact ⟨(address, other), (mem_addressed_iff node).mpr found, rfl⟩

theorem withDescendants_subset {node below : Node} (isBelow : below ∈ node.withDescendants) :
    below.withDescendants ⊆ node.withDescendants := by
  intro other member
  obtain ⟨first, found⟩ := mem_withDescendants_iff.mp isBelow
  obtain ⟨second, foundOther⟩ := mem_withDescendants_iff.mp member
  refine mem_withDescendants_iff.mpr ⟨first ++ second, ?_⟩
  rw [descendant?_append, found, Option.bind_some, foundOther]

end Node

/-! ### The walk -/

namespace Tree

mutual

/-- A walk visits a node, then all nodes below it, and then what was still to be visited. -/
theorem walkFrom_cons (depth : Nat) (node : Node) (pending : List (Nat × Node)) :
    walkFrom ((depth, node) :: pending) =
      node.addressed.map (fun visit => (depth + visit.1.length, visit.2)) ++ walkFrom pending := by
  match node with
  | .leaf token =>
    rw [walkFrom]
    rfl
  | .phrase label children =>
    rw [walkFrom, Node.children, walkFrom_row depth 0 children, Node.addressed]
    rfl

theorem walkFrom_row (depth start : Nat) (nodes : List Node) (pending : List (Nat × Node)) :
    walkFrom (nodes.map (depth + 1, ·) ++ pending) =
      (Node.addressedFrom start nodes).map (fun visit => (depth + visit.1.length, visit.2)) ++
        walkFrom pending := by
  match nodes with
  | [] => rfl
  | node :: nodes =>
    rw [List.map_cons, List.cons_append, walkFrom_cons (depth + 1) node,
      walkFrom_row depth (start + 1) nodes, Node.addressedFrom, List.map_append, List.map_map,
      List.append_assoc]
    refine congrArg (· ++ _) (List.map_congr_left fun visit _ => ?_)
    rw [Function.comp_apply, List.length_cons, Nat.add_right_comm, ← Nat.add_assoc]

end

/-- All nodes below the root with their addresses. -/
def visits (tree : Tree) : List (List Nat × Node) :=
  Node.addressedFrom 0 tree.children

/-- The walk visits the nodes in the order of their addresses, at the depths that these lead to. -/
theorem walk_eq (tree : Tree) :
    tree.walk = tree.visits.map fun visit => (visit.1.length, visit.2) := by
  have ofRow := walkFrom_row 0 0 tree.children []
  rw [List.append_nil, walkFrom, List.append_nil] at ofRow
  rw [walk, visits, ofRow]
  simp only [Nat.zero_add]

/-- The nodes below the root are visited, each at the address where it is found. -/
theorem mem_visits_iff {tree : Tree} {address : List Nat} {node : Node} :
    (address, node) ∈ tree.visits ↔ address ≠ [] ∧ tree.root.descendant? address = some node := by
  rw [← Node.mem_addressed_iff]
  constructor
  · intro member
    obtain ⟨turn, rest, _, rfl, _⟩ := (Node.mem_addressedFrom_iff _).mp member
    exact ⟨List.cons_ne_nil _ rest, List.mem_cons_of_mem _ member⟩
  · rintro ⟨isLonger, found⟩
    rcases List.mem_cons.mp found with isRoot | member
    · exact absurd (congrArg Prod.fst isRoot) isLonger
    · exact member

end Tree

end ShallowParse
