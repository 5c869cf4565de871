/-
This file proves that phrases nest in the order of the rules. Before a rule makes its
pass all phrases are of earlier rules, and the pass never puts one of its phrases around
another. So within a phrase, however deep, there are only words and phrases of earlier
rules, and a tree is at most one level higher than the grammar has rules.
-/

import ShallowParse.Proofs.Chunking.Marks
import ShallowParse.Proofs.Tree.Height

namespace ShallowParse

open Segment

namespace MarkedNode

/-! ### Marks that decrease -/

mutual

/-- Whether a node is a word, or a phrase of a rule before a bound within which there are only words
and phrases of earlier rules. -/
def Descends (bound : Nat) : MarkedNode → Prop
  | leaf _ => True
  | phrase rule _ children => rule < bound ∧ AllDescend rule children

def AllDescend (bound : Nat) : List MarkedNode → Prop
  | [] => True
  | node :: nodes => Descends bound node ∧ AllDescend bound nodes

end

mutual

/-- The marks that are met on each way from a node down to a node at or below it. -/
def paths : MarkedNode → List (List Nat)
  | leaf _ => [[]]
  | phrase rule _ children => [rule] :: (pathsOfAll children).map (rule :: ·)

def pathsOfAll : List MarkedNode → List (List Nat)
  | [] => []
  | node :: nodes => paths node ++ pathsOfAll nodes

end

theorem allDescend_append {bound : Nat} {before after : List MarkedNode} :
    AllDescend bound (before ++ after) ↔ AllDescend bound before ∧ AllDescend bound after := by
  induction before with
  | nil => exact (and_iff_right trivial).symm
  | cons node before inductionHypothesis =>
    rw [List.cons_append, AllDescend, AllDescend, inductionHypothesis, and_assoc]

theorem Descends.mono {bound limit : Nat} (within : bound ≤ limit) :
    {node : MarkedNode} → node.Descends bound → node.Descends limit
  | leaf _, _ => trivial
  | phrase _ _ _, ⟨isEarlier, below⟩ => ⟨Nat.lt_of_lt_of_le isEarlier within, below⟩

theorem allDescend_map_leaf (bound : Nat) (tokens : List Token) :
    AllDescend bound (tokens.map leaf) := by
  induction tokens with
  | nil => trivial
  | cons token tokens inductionHypothesis => exact ⟨trivial, inductionHypothesis⟩

mutual

theorem marks_lt {bound : Nat} : (node : MarkedNode) → node.Descends bound →
    ∀ mark ∈ node.marks, mark < bound
  | leaf _, _ => List.forall_mem_nil _
  | phrase _ _ children, ⟨isEarlier, below⟩ => List.forall_mem_cons.mpr
    ⟨isEarlier, fun mark member => (marksOfAll_lt children below mark member).trans isEarlier⟩

theorem marksOfAll_lt {bound : Nat} : (nodes : List MarkedNode) → AllDescend bound nodes →
    ∀ mark ∈ marksOfAll nodes, mark < bound
  | [], _ => List.forall_mem_nil _
  | node :: nodes, ⟨ofFirst, ofOthers⟩ =>
    List.forall_mem_append.mpr ⟨marks_lt node ofFirst, marksOfAll_lt nodes ofOthers⟩

end

mutual

theorem descends_of_mem {bound : Nat} : (node : MarkedNode) → node.Descends bound →
    ∀ below ∈ node.withDescendants, below.Descends bound
  | leaf _, descends => List.forall_mem_singleton.mpr descends
  | phrase _ _ children, ⟨isEarlier, below⟩ => List.forall_mem_cons.mpr
    ⟨⟨isEarlier, below⟩, fun node member =>
      (descends_of_mem_row children below node member).mono isEarlier.le⟩

/-- What is said of the nodes of a row holds of all nodes below them. -/
theorem descends_of_mem_row {bound : Nat} : (nodes : List MarkedNode) → AllDescend bound nodes →
    ∀ below ∈ descendantsOfAll nodes, below.Descends bound
  | [], _ => List.forall_mem_nil _
  | node :: nodes, ⟨ofFirst, ofOthers⟩ =>
    List.forall_mem_append.mpr ⟨descends_of_mem node ofFirst, descends_of_mem_row nodes ofOthers⟩

end

mutual

theorem paths_decrease {bound : Nat} : (node : MarkedNode) → node.Descends bound →
    ∀ path ∈ node.paths, path.Pairwise (· > ·) ∧ ∀ mark ∈ path, mark < bound
  | leaf _, _ => List.forall_mem_singleton.mpr ⟨List.Pairwise.nil, List.forall_mem_nil _⟩
  | phrase rule _ children, ⟨isEarlier, below⟩ => by
    rw [paths, List.forall_mem_cons, List.forall_mem_map]
    refine ⟨⟨List.pairwise_singleton _ _, List.forall_mem_singleton.mpr isEarlier⟩, ?_⟩
    intro path member
    obtain ⟨decreases, areBelow⟩ := pathsOfAll_decrease children below path member
    exact ⟨List.Pairwise.cons areBelow decreases,
      List.forall_mem_cons.mpr ⟨isEarlier, fun mark isMark => (areBelow mark isMark).trans isEarlier⟩⟩

/-- On every way down the marks decrease. -/
theorem pathsOfAll_decrease {bound : Nat} : (nodes : List MarkedNode) → AllDescend bound nodes →
    ∀ path ∈ pathsOfAll nodes, path.Pairwise (· > ·) ∧ ∀ mark ∈ path, mark < bound
  | [], _ => List.forall_mem_nil _
  | node :: nodes, ⟨ofFirst, ofOthers⟩ =>
    List.forall_mem_append.mpr ⟨paths_decrease node ofFirst, pathsOfAll_decrease nodes ofOthers⟩

end

mutual

theorem height_le {bound : Nat} : (node : MarkedNode) → node.Descends bound →
    node.erase.height ≤ bound
  | leaf _, _ => Nat.zero_le _
  | phrase _ _ children, ⟨isEarlier, below⟩ => (heightOfAll_le children below).trans isEarlier

/-- Below a row whose marks are before a bound there are no more levels than marks. -/
theorem heightOfAll_le {bound : Nat} : (nodes : List MarkedNode) → AllDescend bound nodes →
    Node.heightOfAll (eraseAll nodes) ≤ bound + 1
  | [], _ => Nat.zero_le _
  | node :: nodes, ⟨ofFirst, ofOthers⟩ => Nat.max_le.mpr
    ⟨Nat.succ_le_succ (height_le node ofFirst), heightOfAll_le nodes ofOthers⟩

end

/-! ### Replays of a pass -/

theorem length_eraseAll (nodes : List MarkedNode) : (eraseAll nodes).length = nodes.length := by
  rw [eraseAll_eq_map, List.length_map]

/-- A row is parted after the words of its first nodes. -/
theorem partAfter?_append {before : List MarkedNode} (cover : Node.CoverWords (eraseAll before))
    (after : List MarkedNode) :
    partAfter? (Node.leafCountOfAll (eraseAll before)) (before ++ after) = some (before, after) := by
  have erased := partAfter?_eraseAll (Node.leafCountOfAll (eraseAll before)) (before ++ after)
  rw [eraseAll_append, Node.partAfter?_append cover] at erased
  obtain ⟨⟨first, rest⟩, parted, same⟩ := Option.map_eq_some_iff.mp erased.symm
  have sameLength := congrArg List.length (Prod.mk.inj same).1
  rw [length_eraseAll, length_eraseAll] at sameLength
  obtain ⟨rfl, rfl⟩ := List.append_inj (eq_append_of_partAfter? parted) sameLength.symm
  exact parted

/-- The words of an application are found if nodes cover exactly them. -/
theorem applyOne?_eq {before children : List MarkedNode}
    (coverBefore : Node.CoverWords (eraseAll before))
    (coverChildren : Node.CoverWords (eraseAll children)) (after : List MarkedNode)
    {application : Application}
    (start : application.start = Node.leafCountOfAll (eraseAll before))
    (stop : application.stop = application.start + Node.leafCountOfAll (eraseAll children)) :
    applyOne? (before ++ children ++ after) application =
      some (before ++ phrase application.rule application.label children :: after) := by
  rw [applyOne?, stop, Nat.add_sub_cancel_left, start, List.append_assoc]
  simp only [partAfter?_append coverBefore, partAfter?_append coverChildren, Option.bind_eq_bind,
    Option.bind_some, Option.pure_def]

/-! ### Passes -/

theorem leafCountOfAll_result (segment : Segment) (label : String) :
    Node.leafCountOfAll [segment.result label] = Node.leafCountOfAll segment.nodes := by
  cases segment with
  | kept node => rfl
  | built first others => exact Nat.add_zero _

/-- What the rule at a place makes of a segment is of its own place if it is a new phrase. -/
theorem exists_of_segment (ready : ReadyRule) (rule : Nat) {before here : List MarkedNode}
    {segment : Segment} (isHere : eraseAll here = segment.nodes)
    (coverBefore : Node.CoverWords (eraseAll before)) (coverHere : Node.CoverWords (eraseAll here))
    (descend : AllDescend rule here) (later : List MarkedNode) :
    ∃ left : MarkedNode, left.erase = segment.result ready.rule.label ∧ left.Descends (rule + 1) ∧
      applyAll? (before ++ here ++ later)
          (ready.passOf rule (Node.leafCountOfAll (eraseAll before)) [segment]).applications =
        some (before ++ [left] ++ later) := by
  cases segment with
  | kept node =>
    rw [eraseAll_eq_map] at isHere
    obtain ⟨first, rfl, isFirst⟩ := List.map_eq_singleton_iff.mp isHere
    exact ⟨first, isFirst, descend.1.mono (Nat.le_succ rule), rfl⟩
  | built first others =>
    let application := ready.application rule (Node.leafCountOfAll (eraseAll before))
      (.phrase ready.rule.label (first :: others))
    have stop : application.stop =
        application.start + Node.leafCountOfAll (eraseAll here) := by rw [isHere]; rfl
    have applied : applyOne? (before ++ here ++ later) application = _ :=
      applyOne?_eq coverBefore coverHere later rfl stop
    refine ⟨phrase rule ready.rule.label here, ?_, ⟨Nat.lt_succ_self rule, descend⟩, ?_⟩
    · rw [erase, isHere]
      rfl
    · refine Option.bind_eq_some_iff.mpr ⟨_, applied, ?_⟩
      rw [List.append_assoc, List.singleton_append]
      rfl

/-- The segments of a pass are replayed after the nodes that the pass has left before them. -/
theorem exists_of_passOf (ready : ReadyRule) (rule : Nat) (before : List MarkedNode)
    {rest : List MarkedNode} {segments : List Segment} (isRest : eraseAll rest = nodesOfAll segments)
    (cover : Node.CoverWords (eraseAll (before ++ rest))) (descend : AllDescend rule rest) :
    ∃ left, applyAll? (before ++ rest)
          (ready.passOf rule (Node.leafCountOfAll (eraseAll before)) segments).applications =
        some (before ++ left) ∧
      eraseAll left = segments.map (result ready.rule.label) ∧ AllDescend (rule + 1) left := by
  induction segments generalizing before rest with
  | nil =>
    rw [eraseAll_eq_map] at isRest
    obtain rfl := List.map_eq_nil_iff.mp isRest
    exact ⟨[], rfl, rfl, trivial⟩
  | cons segment segments inductionHypothesis =>
    rw [nodesOfAll_cons, eraseAll_eq_map] at isRest
    obtain ⟨here, later, rfl, isHere, isLater⟩ := List.map_eq_append_iff.mp isRest
    rw [← eraseAll_eq_map] at isHere isLater
    rw [eraseAll_append, eraseAll_append, Node.coverWords_append, Node.coverWords_append] at cover
    obtain ⟨coverBefore, coverHere, coverLater⟩ := cover
    obtain ⟨descendHere, descendLater⟩ := allDescend_append.mp descend
    obtain ⟨first, isFirst, descends, applied⟩ :=
      exists_of_segment ready rule isHere coverBefore coverHere descendHere later
    -- What is left of the segment covers the words that the segment covered.
    have sameWords : Node.leafCountOfAll (eraseAll (before ++ [first])) =
        Node.leafCountOfAll (eraseAll before) + Node.leafCountOfAll (nodesOfAll [segment]) := by
      rw [eraseAll_append, Node.leafCountOfAll_append, eraseAll, isFirst, eraseAll,
        leafCountOfAll_result, nodesOfAll_singleton]
    have coverFirst : Node.CoverWords (eraseAll [first]) := by
      rw [eraseAll, isFirst]
      exact List.forall_mem_singleton.mpr (leafCount_result_pos (isHere ▸ coverHere) _)
    have coverNext : Node.CoverWords (eraseAll (before ++ [first] ++ later)) := by
      rw [eraseAll_append, eraseAll_append]
      exact Node.coverWords_append.mpr
        ⟨Node.coverWords_append.mpr ⟨coverBefore, coverFirst⟩, coverLater⟩
    obtain ⟨left, appliedLater, isLeft, descendLeft⟩ :=
      inductionHypothesis _ isLater coverNext descendLater
    refine ⟨first :: left, ?_, ?_, descends, descendLeft⟩
    · rw [← List.singleton_append, ReadyRule.applications_passOf_append, applyAll?_append,
        ← List.append_assoc, applied, ← sameWords, Option.bind_some, appliedLater,
        List.append_assoc, List.singleton_append]
    · rw [eraseAll, isFirst, isLeft, List.map_cons]

/-! ### Runs -/

end MarkedNode

open MarkedNode

/-- What a run adds to nodes of earlier rules is replayed with marks that decrease. -/
theorem Run.exists_descending (rules : List ReadyRule) (rule : Nat) {nodes : List MarkedNode}
    (cover : Node.CoverWords (eraseAll nodes)) (descend : AllDescend rule nodes) :
    ∃ left, applyAll? nodes (ofRules rule (eraseAll nodes) rules).applications = some left ∧
      eraseAll left = (ofRules rule (eraseAll nodes) rules).nodes ∧
      AllDescend (rule + rules.length) left := by
  induction rules generalizing rule nodes with
  | nil => exact ⟨nodes, rfl, rfl, descend⟩
  | cons ready others inductionHypothesis =>
    obtain ⟨segments, isRow, _, isPass⟩ := ready.exists_segments rule (eraseAll nodes)
    obtain ⟨middle, applied, isMiddle, descendMiddle⟩ :=
      exists_of_passOf ready rule [] isRow.symm cover descend
    have coverMiddle : Node.CoverWords (eraseAll middle) := by
      rw [isMiddle]
      exact coverWords_results (isRow.symm ▸ cover)
    obtain ⟨left, appliedLater, isLeft, descendLeft⟩ :=
      inductionHypothesis (rule + 1) coverMiddle descendMiddle
    rw [isMiddle, ← ready.nodes_passOf rule 0, ← isPass] at appliedLater isLeft
    rw [nodes_cons, applications_cons, applyAll?_append]
    refine ⟨left, ?_, isLeft, ?_⟩
    · exact Option.bind_eq_some_iff.mpr ⟨middle, isPass ▸ applied, appliedLater⟩
    · rw [List.length_cons, Nat.add_comm others.length, ← Nat.add_assoc]
      exact descendLeft

/-- A run from words is replayed with marks that decrease. -/
theorem Run.exists_descending_of_words (rules : List ReadyRule) (tokens : List Token) :
    ∃ marked,
      applyAll? (tokens.map leaf) (ofRules 0 (tokens.map .leaf) rules).applications = some marked ∧
      eraseAll marked = (ofRules 0 (tokens.map .leaf) rules).nodes ∧
      AllDescend rules.length marked := by
  have cover : Node.CoverWords (eraseAll (tokens.map leaf)) := by
    rw [eraseAll_map_leaf]
    exact Node.coverWords_map_leaf tokens
  have descending := exists_descending rules 0 cover (allDescend_map_leaf 0 tokens)
  rwa [eraseAll_map_leaf, Nat.zero_add] at descending

/-! ### Sentences -/

namespace Chunker

/-- On every way down from the root of a tree the rules that built the phrases come ever earlier in
the grammar, where the replay of the trace tells which rule built each phrase. So a phrase holds words
and phrases of earlier rules only, and the tree is at most one level higher than the grammar has
rules. The tree of no words has no height. -/
theorem chunkTraced_nests (chunker : Chunker) {tokens : List Token}
    (complete : ∀ token ∈ tokens, token.IsComplete) :
    ∃ tree trace marked, chunker.chunk tokens = .ok tree ∧
      chunker.chunkTraced tokens = .ok (tree, trace) ∧
      applyAll? (tokens.map .leaf) trace = some marked ∧ eraseAll marked = tree.children ∧
      (∀ path ∈ pathsOfAll marked, path.Pairwise (· > ·)) ∧
      (∀ rule label children, .phrase rule label children ∈ descendantsOfAll marked →
        rule < chunker.grammar.size ∧ ∀ mark ∈ marksOfAll children, mark < rule) ∧
      tree.height ≤ chunker.grammar.size + 1 ∧ (tokens = [] → tree.height = 0) := by
  obtain ⟨marked, replayed, isMarked, descend⟩ :=
    Run.exists_descending_of_words chunker.grammar.ready tokens
  refine ⟨_, _, marked, chunk_eq_of_complete _ complete, chunkTraced_eq _ complete, replayed,
    isMarked, fun path member => (pathsOfAll_decrease marked descend path member).1, ?_, ?_, ?_⟩
  · intro rule label children member
    obtain ⟨isRule, below⟩ := descends_of_mem_row marked descend _ member
    exact ⟨isRule, marksOfAll_lt children below⟩
  · rw [Tree.height_eq, ← isMarked]
    exact heightOfAll_le marked descend
  · rintro rfl
    rw [Tree.height_eq, List.map_nil, Run.ofRules_nil]
    rfl

/-- The tree of the reference sentence is as high as a tree of three rules can be. -/
theorem chunkTraced_nests_sentence :
    (∀ token ∈ Reference.sentence, token.IsComplete) ∧
      ∃ tree trace marked,
        chunkTraced ⟨Reference.ready, "S"⟩ Reference.sentence = .ok (tree, trace) ∧
        applyAll? (Reference.sentence.map .leaf) trace = some marked ∧
        eraseAll marked = tree.children ∧ (∀ path ∈ pathsOfAll marked, path.Pairwise (· > ·)) ∧
        tree.height ≤ 4 ∧ tree.height = 4 := by
  obtain ⟨tree, trace, marked, isTree, isTrace, replayed, same, decrease, _, bounded, _⟩ :=
    chunkTraced_nests ⟨Reference.ready, "S"⟩ Reference.sentence_isComplete
  have isHeight : (chunk ⟨Reference.ready, "S"⟩ Reference.sentence).map
      (fun tree => Node.heightOfAll tree.children) = .ok 4 := by decide +kernel
  rw [isTree] at isHeight
  exact ⟨Reference.sentence_isComplete, tree, trace, marked, isTrace, replayed, same, decrease,
    bounded, tree.height_eq.trans (Except.ok.inj isHeight)⟩

end Chunker

end ShallowParse
