/-
This file proves that the outline of a tree draws its walk: after the label of the root
there is one line for each node, in the order of the walk. What stands before a node on its
line tells which of its ancestors have siblings after them. The margin that the drawing of a
row of children gets is that of the beginnings of the address they hang from, and the
induction over the nodes keeps it so.
-/

import Mathlib.Data.List.Forall2
import ShallowParse.Proofs.Text.Lines
import ShallowParse.Proofs.Tree.Addresses
import ShallowParse.Tree.Outline

namespace ShallowParse

namespace Node

/-! ### What a line shows -/

/-- The beginnings of an address, the shortest of which is one turn long and the longest is the
address itself. -/
def beginnings (address : List Nat) : List (List Nat) :=
  (List.range' 1 address.length).map address.take

/-- Whether the node at an address has a sibling after it. -/
def hasNextAt (root : Node) (address : List Nat) : Bool :=
  address.getLast?.any fun turn => (root.descendant? (address.dropLast ++ [turn + 1])).isSome

/-- What a line shows of the ancestor of its node that is at an address. -/
def cellAt (root : Node) (address : List Nat) : String :=
  if root.hasNextAt address then "│ " else "  "

/-- What a line shows of the ancestors of its node, given the address of the nearest one. -/
def cells (root : Node) (address : List Nat) : String :=
  String.join ((beginnings address).map root.cellAt)

def connectorAt (root : Node) (address : List Nat) : String :=
  if root.hasNextAt address then "├─ " else "└─ "

/-- Whether a text is what the line of a node says of it. A phrase shows its words with spaces
between them, cut after so many characters and with dots if there are more. -/
inductive HasCaption : Node → String → Prop where
  | word (token : Token) : HasCaption (leaf token) (token.text ++ "/" ++ token.tag)
  | whole {label words : String} {children : List Node}
    (areWords : " ".intercalate ((phrase label children).leaves.map Token.text) = words)
    (fits : words.length ≤ 40) : HasCaption (phrase label children) (label ++ ": " ++ words)
  | cut {label shown hidden : String} {children : List Node}
    (areWords : " ".intercalate ((phrase label children).leaves.map Token.text) = shown ++ hidden)
    (full : shown.length = 40) (goesOn : hidden ≠ "") :
    HasCaption (phrase label children) (label ++ ": " ++ shown ++ "...")

/-- Whether a line is that of the node at an address below the root. -/
def HasLine (root : Node) (address : List Nat) (line : String) : Prop :=
  ∃ node caption, root.descendant? address = some node ∧ node.HasCaption caption ∧
    line = root.cells address.dropLast ++ root.connectorAt address ++ caption

/-! ### Addresses of a row -/

theorem beginnings_concat (address : List Nat) (turn : Nat) :
    beginnings (address ++ [turn]) = beginnings address ++ [address ++ [turn]] := by
  have isWhole : (address ++ [turn]).take (1 + address.length) = address ++ [turn] :=
    List.take_of_length_le (by simp [Nat.add_comm])
  rw [beginnings, List.length_append, List.length_singleton, List.range'_1_concat, List.map_append,
    List.map_singleton, isWhole, beginnings]
  refine congrArg (· ++ _) (List.map_congr_left fun depth member => ?_)
  obtain ⟨_, within⟩ := List.mem_range'_1.mp member
  exact List.take_append_of_le_length (by omega)

theorem cells_concat (root : Node) (address : List Nat) (turn : Nat) :
    root.cells (address ++ [turn]) = root.cells address ++ root.cellAt (address ++ [turn]) := by
  rw [cells, beginnings_concat, List.map_append, String.join_append, List.map_singleton,
    String.join_cons, String.join_nil, String.append_empty, cells]

theorem hasNextAt_concat (root : Node) (address : List Nat) (turn : Nat) :
    root.hasNextAt (address ++ [turn]) = (root.descendant? (address ++ [turn + 1])).isSome := by
  rw [hasNextAt, List.getLast?_concat, List.dropLast_concat]
  rfl

/-- A node of a row has a sibling after it just if it is not the last one. -/
theorem hasNextAt_row {root above : Node} {parent : List Nat}
    (found : root.descendant? parent = some above) {turn : Nat} {node : Node} {nodes : List Node}
    (row : above.children.drop turn = node :: nodes) :
    root.hasNextAt (parent ++ [turn]) = !nodes.isEmpty := by
  have isRest : above.children.drop (turn + 1) = nodes := by
    rw [← List.drop_drop, row]
    rfl
  rw [hasNextAt_concat, descendant?_concat found, ← isRest, ← List.head?_drop]
  cases above.children.drop (turn + 1) <;> rfl

/-! ### Drawing -/

/-- The line that is drawn for a node with its address. -/
def lineAt (root : Node) (visit : List Nat × Node) : String :=
  root.cells visit.1.dropLast ++ root.connectorAt visit.1 ++ visit.2.outlineText

theorem connector_eq (root : Node) (address : List Nat) :
    connector (!root.hasNextAt address) = root.connectorAt address := by
  rw [connector, connectorAt]
  cases root.hasNextAt address <;> rfl

theorem continuation_eq (root : Node) (address : List Nat) :
    continuation (!root.hasNextAt address) = root.cellAt address := by
  rw [continuation, cellAt]
  cases root.hasNextAt address <;> rfl

theorem hasCaption_outlineText (node : Node) : node.HasCaption node.outlineText := by
  cases node with
  | leaf token => exact HasCaption.word token
  | phrase label children =>
    have areWords : " ".intercalate ((phrase label children).leaves.map Token.text) =
        joinedText (leavesOfAll children) := rfl
    rw [outlineText, shown]
    generalize joinedText (leavesOfAll children) = words at areWords
    split
    · rename_i isLonger
      rw [← String.length_toList] at isLonger
      have parted : words = String.ofList (words.toList.take shownLength) ++
          String.ofList (words.toList.drop shownLength) := by
        rw [← String.ofList_append, List.take_append_drop, String.ofList_toList]
      rw [← String.append_assoc]
      refine HasCaption.cut (areWords.trans parted) ?_ ?_
      · rw [String.length_ofList, List.length_take_of_le (Nat.le_of_lt isLonger), shownLength]
      · rw [ne_eq, String.ofList_eq_empty_iff, List.drop_eq_nil_iff, Nat.not_le]
        exact isLonger
    · rename_i fits
      exact HasCaption.whole areWords (Nat.le_of_not_lt fits)

mutual

/-- A node is drawn by the lines of all nodes from it on down. -/
theorem outline_eq (root node : Node) {parent : List Nat} {turn : Nat}
    (found : root.descendant? (parent ++ [turn]) = some node) :
    node.outline (root.cells parent) (!root.hasNextAt (parent ++ [turn])) =
      String.join (node.addressed.map fun visit =>
        root.lineAt (parent ++ turn :: visit.1, visit.2) ++ "\n") := by
  match node with
  | leaf token =>
    rw [outline, addressed, List.map_singleton, String.join_cons, String.join_nil,
      String.append_empty, lineAt, List.dropLast_concat, connector_eq]
  | phrase label children =>
    have ofChildren := outlineOfAll_eq root children found (List.drop_zero)
    simp only [List.append_assoc, List.singleton_append] at ofChildren
    rw [outline, addressed, List.map_cons, String.join_cons, lineAt, List.dropLast_concat,
      connector_eq, continuation_eq, ← cells_concat, ofChildren]

theorem outlineOfAll_eq (root : Node) (nodes : List Node) {above : Node} {parent : List Nat}
    {start : Nat} (found : root.descendant? parent = some above)
    (row : above.children.drop start = nodes) :
    outlineOfAll (root.cells parent) nodes =
      String.join ((addressedFrom start nodes).map fun visit =>
        root.lineAt (parent ++ visit.1, visit.2) ++ "\n") := by
  match nodes with
  | [] => rfl
  | node :: nodes =>
    have isNode : root.descendant? (parent ++ [start]) = some node := by
      rw [descendant?_concat found, ← List.head?_drop, row]
      rfl
    have isRest : above.children.drop (start + 1) = nodes := by
      rw [← List.drop_drop, row]
      rfl
    have ofNode := outline_eq root node isNode
    rw [hasNextAt_row found row, Bool.not_not] at ofNode
    rw [outlineOfAll, addressedFrom, List.map_append, String.join_append,
      outlineOfAll_eq root nodes found isRest, List.map_map, ofNode]
    rfl

end

/-! ### Line feeds -/

/-- The label of a phrase, or a word and its tag. -/
def names : Node → List String
  | leaf token => [token.text, token.tag]
  | phrase label _ => [label]

/-- Whether no label, word or tag has a line feed from a node on down. -/
def IsFeedless (node : Node) : Prop :=
  ∀ below ∈ node.withDescendants, ∀ name ∈ below.names, '\n' ∉ name.toList

instance (node : Node) : Decidable node.IsFeedless :=
  inferInstanceAs (Decidable (∀ below ∈ node.withDescendants, _))

theorem IsFeedless.below {node below : Node} {address : List Nat} (isFeedless : node.IsFeedless)
    (found : node.descendant? address = some below) : below.IsFeedless :=
  fun other member =>
    isFeedless other (withDescendants_subset (mem_withDescendants_iff.mpr ⟨address, found⟩) member)

theorem IsFeedless.names {node : Node} (isFeedless : node.IsFeedless) :
    ∀ name ∈ node.names, '\n' ∉ name.toList :=
  isFeedless node (mem_withDescendants_iff.mpr ⟨[], rfl⟩)

theorem IsFeedless.words {node : Node} (isFeedless : node.IsFeedless) :
    '\n' ∉ (" ".intercalate (node.leaves.map Token.text)).toList := by
  rw [String.toList_intercalate, List.map_map]
  refine Text.notMem_intercalate (by decide) (List.forall_mem_map.mpr fun token member => ?_)
  exact isFeedless (leaf token) (leaf_mem_withDescendants node member) token.text
    List.mem_cons_self

/-- What the line of a node says has no line feed if what it is made of has none. -/
theorem HasCaption.notMem_feed {node : Node} {caption : String}
    (hasCaption : node.HasCaption caption) (isFeedless : node.IsFeedless) :
    '\n' ∉ caption.toList := by
  have ofNames := isFeedless.names
  have ofWords := isFeedless.words
  cases hasCaption with
  | word token =>
    rw [Node.names, List.forall_mem_cons, List.forall_mem_singleton] at ofNames
    rw [String.toList_append, String.toList_append]
    exact List.not_mem_append (List.not_mem_append ofNames.1 (by decide)) ofNames.2
  | whole areWords fits =>
    rw [Node.names, List.forall_mem_singleton] at ofNames
    rw [areWords] at ofWords
    rw [String.toList_append, String.toList_append]
    exact List.not_mem_append (List.not_mem_append ofNames (by decide)) ofWords
  | cut areWords full goesOn =>
    rw [Node.names, List.forall_mem_singleton] at ofNames
    rw [areWords, String.toList_append, List.mem_append, not_or] at ofWords
    rw [String.toList_append, String.toList_append, String.toList_append]
    exact List.not_mem_append
      (List.not_mem_append (List.not_mem_append ofNames (by decide)) ofWords.1) (by decide)

theorem notMem_feed_cells (root : Node) (address : List Nat) :
    '\n' ∉ (root.cells address).toList := by
  rw [cells, String.toList_join, List.mem_flatMap]
  rintro ⟨cell, member, isFed⟩
  obtain ⟨_, _, rfl⟩ := List.mem_map.mp member
  rw [cellAt] at isFed
  split at isFed <;> exact absurd isFed (by decide)

theorem HasLine.notMem_feed {root : Node} {address : List Nat} {line : String}
    (hasLine : root.HasLine address line) (isFeedless : root.IsFeedless) :
    '\n' ∉ line.toList := by
  obtain ⟨node, caption, found, hasCaption, rfl⟩ := hasLine
  have ofConnector : '\n' ∉ (root.connectorAt address).toList := by
    rw [connectorAt]
    split <;> decide
  rw [String.toList_append, String.toList_append]
  exact List.not_mem_append (List.not_mem_append (notMem_feed_cells root _) ofConnector)
    (hasCaption.notMem_feed (isFeedless.below found))

end Node

namespace Tree

/-! ### Lines and walk -/

theorem outline_eq_join (tree : Tree) :
    tree.outline =
      String.join ((tree.label :: tree.visits.map tree.root.lineAt).map (· ++ "\n")) := by
  have isRoot : tree.root.descendant? [] = some tree.root := rfl
  have ofChildren := Node.outlineOfAll_eq tree.root tree.children isRoot List.drop_zero
  rw [List.map_cons, String.join_cons, List.map_map]
  exact congrArg (tree.label ++ "\n" ++ ·) ofChildren

/-- The addresses of the walk are those where nodes are found below the root. -/
theorem mem_map_fst_visits_iff {tree : Tree} {address : List Nat} :
    address ∈ tree.visits.map Prod.fst ↔
      address ≠ [] ∧ (tree.root.descendant? address).isSome = true := by
  rw [List.mem_map, Option.isSome_iff_exists]
  constructor
  · rintro ⟨⟨_, node⟩, isVisited, rfl⟩
    obtain ⟨isBelow, found⟩ := mem_visits_iff.mp isVisited
    exact ⟨isBelow, node, found⟩
  · rintro ⟨isBelow, node, found⟩
    exact ⟨(address, node), mem_visits_iff.mpr ⟨isBelow, found⟩, rfl⟩

theorem hasLine_lineAt {tree : Tree} {visit : List Nat × Node} (member : visit ∈ tree.visits) :
    tree.root.HasLine visit.1 (tree.root.lineAt visit) :=
  ⟨visit.2, visit.2.outlineText, (mem_visits_iff.mp member).2,
    Node.hasCaption_outlineText visit.2, rfl⟩

/-- Whether an outline is made of the label of the root and lines after it, and these belong one by
one to the nodes that the walk visits. The addresses say where it finds them: they ascend, so that
each node comes before the nodes below it and these before its next sibling, and none is missing. -/
structure IsOutlined (tree : Tree) (addresses : List (List Nat)) (lines : List String) : Prop where
  isText : tree.outline = String.join ((tree.label :: lines).map (· ++ "\n"))
  isFeedless : tree.root.IsFeedless → ∀ line ∈ tree.label :: lines, '\n' ∉ line.toList
  areLines : List.Forall₂ tree.root.HasLine addresses lines
  areVisited : List.Forall₂
    (fun address visit => visit.1 = address.length ∧ tree.root.descendant? address = some visit.2)
    addresses tree.walk
  isAscending : addresses.Pairwise (· < ·)
  isComplete : ∀ address,
    address ∈ addresses ↔ address ≠ [] ∧ (tree.root.descendant? address).isSome = true

/-- The outline of a tree is the label of the root and a line for each node of the walk, in the
order of the walk. -/
theorem outline_draws_walk (tree : Tree) :
    ∃ addresses lines,
      tree.IsOutlined addresses lines ∧ (tree.label :: lines).length = 1 + tree.walk.length := by
  have areLines : ∀ visit ∈ tree.visits, tree.root.HasLine visit.1 (tree.root.lineAt visit) :=
    fun visit member => hasLine_lineAt member
  refine ⟨tree.visits.map Prod.fst, tree.visits.map tree.root.lineAt,
    ⟨tree.outline_eq_join, ?_, ?_, ?_, Node.pairwise_addressedFrom 0 tree.children,
      fun _ => mem_map_fst_visits_iff⟩, ?_⟩
  · intro isFeedless
    rw [List.forall_mem_cons, List.forall_mem_map]
    exact ⟨isFeedless.names _ List.mem_cons_self,
      fun visit member => (areLines visit member).notMem_feed isFeedless⟩
  · rw [List.forall₂_map_left_iff, List.forall₂_map_right_iff, List.forall₂_same]
    exact areLines
  · rw [walk_eq, List.forall₂_map_left_iff, List.forall₂_map_right_iff, List.forall₂_same]
    exact fun visit member => ⟨rfl, (mem_visits_iff.mp member).2⟩
  · rw [walk_eq, List.length_cons, List.length_map, List.length_map, Nat.add_comm]

/-- A tree with a phrase in a phrase and a sibling after both. -/
def rose : Tree :=
  ⟨"S", [.phrase "VP" [.leaf ⟨"bought", "VBD"⟩,
    .phrase "NP" [.leaf ⟨"a", "DT"⟩, .leaf ⟨"rose", "NN"⟩]], .leaf ⟨".", "."⟩]⟩

theorem outline_draws_walk_rose :
    rose.root.IsFeedless ∧
      ∃ lines : List String, lines.length = 7 ∧ (∀ line ∈ lines, '\n' ∉ line.toList) ∧
        rose.outline = String.join (lines.map (· ++ "\n")) := by
  have isFeedless : rose.root.IsFeedless := by decide
  have walkLength : rose.walk.length = 6 := by
    rw [walk_eq, List.length_map]
    rfl
  obtain ⟨_, lines, isOutlined, length⟩ := outline_draws_walk rose
  rw [walkLength] at length
  exact ⟨isFeedless, _, length, isOutlined.isFeedless isFeedless, isOutlined.isText⟩

example : rose.outline =
    "S\n├─ VP: bought a rose\n│ ├─ bought/VBD\n│ └─ NP: a rose\n│   ├─ a/DT\n│   └─ rose/NN\n" ++
      "└─ ./.\n" := by decide

end Tree

end ShallowParse
