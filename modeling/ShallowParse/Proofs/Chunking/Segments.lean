/-
This file says what a pass can do. It parts the nodes it starts from into segments:
a node that stays, or the nodes of a match, of which there is one at least. Before
the first node of each segment stands what the matcher answers there. All that a
pass leaves, builds and reports is made up of these segments, so that whatever is
to be known about a pass is proved segment by segment.
-/

import Mathlib.Data.List.Forall2
import ShallowParse.Chunker
import ShallowParse.Proofs.Matching.Locality
import ShallowParse.Proofs.Tree.Descendants

namespace ShallowParse

/-- What a pass makes of the next nodes. -/
inductive Segment where
  | kept (node : Node)
  | built (first : Node) (others : List Node)

namespace Segment

/-- The nodes of a segment as the pass finds them. -/
def nodes : Segment → List Node
  | kept node => [node]
  | built first others => first :: others

/-- The node that the pass leaves in place of a segment. -/
def result (label : String) : Segment → Node
  | kept node => node
  | built first others => .phrase label (first :: others)

/-- The phrases that the pass builds over a segment. -/
def phrases (label : String) : Segment → List Node
  | kept _ => []
  | built first others => [.phrase label (first :: others)]

/-- What the matcher answers at the first node of a segment. -/
def answer : Segment → Option Nat
  | kept _ => none
  | built _ others => some (others.length + 1)

/-- The nodes of several segments. -/
def nodesOfAll (segments : List Segment) : List Node :=
  segments.flatMap nodes

theorem nodesOfAll_cons (segment : Segment) (segments : List Segment) :
    nodesOfAll (segment :: segments) = segment.nodes ++ nodesOfAll segments :=
  List.flatMap_cons

theorem nodesOfAll_singleton (segment : Segment) : nodesOfAll [segment] = segment.nodes :=
  List.flatMap_singleton nodes segment

end Segment

open Segment

/-! ### Segments of a pass -/

namespace ReadyRule

/-- Whether the matcher answers what the segments say, the first of which begins at a place. -/
def Answers (ready : ReadyRule) (symbols : SymbolText) : Nat → List Segment → Prop
  | _, [] => True
  | index, segment :: segments =>
    ready.matcher.matchAt symbols index = segment.answer ∧
      ready.Answers symbols (index + segment.nodes.length) segments

/-- The pass that makes up segments, the first word of which has the given offset. -/
def passOf (ready : ReadyRule) (rule : Nat) : Nat → List Segment → Pass
  | _, [] => Pass.empty
  | offset, kept node :: segments =>
    Pass.keep node (ready.passOf rule (offset + node.leafCount) segments)
  | offset, built first others :: segments =>
    let phrase := Node.phrase ready.rule.label (first :: others)
    Pass.build (ready.application rule offset phrase) phrase
      (ready.passOf rule (offset + phrase.leafCount) segments)

theorem nodes_passOf (ready : ReadyRule) (rule offset : Nat) (segments : List Segment) :
    (ready.passOf rule offset segments).nodes = segments.map (result ready.rule.label) := by
  induction segments generalizing offset with
  | nil => rfl
  | cons segment segments inductionHypothesis =>
    cases segment with
    | kept node => exact congrArg (node :: ·) (inductionHypothesis _)
    | built first others => exact congrArg (_ :: ·) (inductionHypothesis _)

theorem applications_passOf_append (ready : ReadyRule) (rule offset : Nat)
    (first second : List Segment) :
    (ready.passOf rule offset (first ++ second)).applications =
      (ready.passOf rule offset first).applications ++
        (ready.passOf rule (offset + Node.leafCountOfAll (nodesOfAll first))
          second).applications := by
  induction first generalizing offset with
  | nil => rfl
  | cons segment first inductionHypothesis =>
    rw [nodesOfAll_cons, Node.leafCountOfAll_append, ← Nat.add_assoc]
    cases segment with
    | kept node => exact inductionHypothesis _
    | built first others => exact congrArg (_ :: ·) (inductionHypothesis _)

/-- Going over nodes parts them into segments. -/
theorem exists_segments_of_scan (ready : ReadyRule) (rule : Nat) (stream : List Node)
    (index offset : Nat) (nodes : List Node) (isRest : stream.drop index = nodes) :
    ∃ segments, nodesOfAll segments = nodes ∧ ready.Answers (symbolText stream) index segments ∧
      ready.scan rule (symbolText stream) index offset nodes =
        ready.passOf rule offset segments := by
  induction index, offset, nodes using scan.induct ready (symbolText stream) with
  | case1 index offset => exact ⟨[], rfl, trivial, by rw [scan]; rfl⟩
  | case2 index offset node rest consumed found phrase inductionHypothesis =>
    have symbolsLeft : ((stream.map Node.symbol).drop index).length = rest.length + 1 := by
      rw [← List.map_drop, isRest, List.length_map, List.length_cons]
    have bounds := Matcher.consumed_bounds found
    have isTaken : (rest.take (consumed - 1)).length + 1 = consumed := by
      rw [List.length_take]
      omega
    have isLeft : stream.drop (index + consumed) = rest.drop (consumed - 1) := by
      obtain ⟨others, rfl⟩ := Nat.exists_eq_add_of_lt bounds.1
      rw [← List.drop_drop, isRest, Nat.zero_add, List.drop_succ_cons, Nat.add_sub_cancel]
    obtain ⟨segments, parted, answers, scanned⟩ := inductionHypothesis isLeft
    refine ⟨built node (rest.take (consumed - 1)) :: segments, ?_, ⟨?_, ?_⟩, ?_⟩
    · rw [nodesOfAll_cons, parted, Segment.nodes, List.cons_append, List.take_append_drop]
    · rw [found, answer, isTaken]
    · rw [Segment.nodes, List.length_cons, isTaken]
      exact answers
    · rw [scan, found]
      show Pass.build _ phrase (ready.scan rule _ _ _ _) = _
      rw [scanned]
      rfl
  | case3 index offset node rest unmatched inductionHypothesis =>
    have isLeft : stream.drop (index + 1) = rest := by
      rw [← List.drop_drop, isRest, List.drop_succ_cons, List.drop_zero]
    obtain ⟨segments, parted, answers, scanned⟩ := inductionHypothesis isLeft
    refine ⟨kept node :: segments, ?_, ⟨unmatched, answers⟩, ?_⟩
    · rw [nodesOfAll_cons, parted]
      rfl
    · rw [scan, unmatched]
      show Pass.keep node (ready.scan rule _ _ _ _) = _
      rw [scanned]
      rfl

/-- Going over the nodes of segments that the matcher answers makes up just these segments. -/
theorem scan_nodesOfAll (ready : ReadyRule) (rule : Nat) (symbols : SymbolText) (index offset : Nat)
    (segments : List Segment) (answers : ready.Answers symbols index segments) :
    ready.scan rule symbols index offset (nodesOfAll segments) =
      ready.passOf rule offset segments := by
  induction segments generalizing index offset with
  | nil => exact scan.eq_1 ready rule symbols index offset
  | cons segment segments inductionHypothesis =>
    obtain ⟨here, later⟩ := answers
    have ofRest (offset : Nat) := inductionHypothesis _ offset later
    rw [nodesOfAll_cons]
    cases segment with
    | kept node =>
      rw [Segment.nodes, List.singleton_append, scan, here]
      exact congrArg (Pass.keep node) (ofRest _)
    | built first others =>
      rw [Segment.nodes, List.cons_append, scan, here]
      simp only [answer, Nat.add_sub_cancel, List.take_left, List.drop_left]
      exact congrArg (Pass.build _ _) (ofRest _)

theorem answers_append (ready : ReadyRule) (symbols : SymbolText) (index : Nat)
    (before after : List Segment) :
    ready.Answers symbols index (before ++ after) ↔ ready.Answers symbols index before ∧
      ready.Answers symbols (index + (nodesOfAll before).length) after := by
  induction before generalizing index with
  | nil => exact (and_iff_right trivial).symm
  | cons segment before inductionHypothesis =>
    rw [List.cons_append, Answers, Answers, inductionHypothesis, nodesOfAll_cons,
      List.length_append, Nat.add_assoc, and_assoc]

/-- Segments that the matcher answers in one text it answers wherever else it matches alike. -/
theorem Answers.elsewhere {ready : ReadyRule} {symbols others : SymbolText} {index place : Nat}
    {segments : List Segment} (answers : ready.Answers symbols index segments)
    (alike : ∀ distance < (nodesOfAll segments).length,
      ready.matcher.matchAt others (place + distance) =
        ready.matcher.matchAt symbols (index + distance)) :
    ready.Answers others place segments := by
  induction segments generalizing index place with
  | nil => trivial
  | cons segment segments inductionHypothesis =>
    obtain ⟨here, later⟩ := answers
    rw [nodesOfAll_cons, List.length_append] at alike
    have someNode : 0 < segment.nodes.length := by
      cases segment <;> exact Nat.zero_lt_succ _
    refine ⟨(alike 0 (Nat.add_pos_left someNode _)).trans here,
      inductionHypothesis later fun distance within => ?_⟩
    rw [Nat.add_assoc, Nat.add_assoc]
    exact alike _ (Nat.add_lt_add_left within _)

/-! ### New phrases -/

/-- Whether the rule at a place of the grammar, going over a stream, builds a phrase over a match and
reports it as an application. -/
def Builds (ready : ReadyRule) (rule : Nat) (stream : List Node) (application : Application)
    (phrase : Node) : Prop :=
  ∃ before children after, stream = before ++ children ++ after ∧ children ≠ [] ∧
    ready.matcher.matchAt (symbolText stream) before.length = some children.length ∧
    phrase = .phrase ready.rule.label children ∧
    application = ready.application rule (Node.leafCountOfAll before) phrase

/-- What segments report are the phrases they build, in the same order. -/
theorem builds_passOf (ready : ReadyRule) (rule : Nat) (before : List Node)
    (segments : List Segment)
    (answers : ready.Answers (symbolText (before ++ nodesOfAll segments)) before.length segments) :
    List.Forall₂ (ready.Builds rule (before ++ nodesOfAll segments))
      (ready.passOf rule (Node.leafCountOfAll before) segments).applications
      (segments.flatMap (Segment.phrases ready.rule.label)) := by
  induction segments generalizing before with
  | nil => exact List.Forall₂.nil
  | cons segment segments inductionHypothesis =>
    obtain ⟨here, later⟩ := answers
    have ofRest := inductionHypothesis (before ++ segment.nodes)
    rw [List.append_assoc, ← nodesOfAll_cons, List.length_append, Node.leafCountOfAll_append]
      at ofRest
    cases segment with
    | kept node => exact ofRest later
    | built first others =>
      refine List.Forall₂.cons ?_ (ofRest later)
      refine ⟨before, first :: others, nodesOfAll segments, ?_, List.cons_ne_nil _ _, here, rfl, rfl⟩
      rw [nodesOfAll_cons, List.append_assoc]
      rfl

/-- A pass parts the nodes it starts from into segments. -/
theorem exists_segments (ready : ReadyRule) (rule : Nat) (nodes : List Node) :
    ∃ segments, nodesOfAll segments = nodes ∧ ready.Answers (symbolText nodes) 0 segments ∧
      ready.pass rule nodes = ready.passOf rule 0 segments :=
  ready.exists_segments_of_scan rule nodes 0 0 nodes rfl

theorem pass_nil (ready : ReadyRule) (rule : Nat) : ready.pass rule [] = Pass.empty := by
  rw [pass, scan]

end ReadyRule

/-! ### Passes of a run -/

namespace Run

theorem ofRules_nil (rule : Nat) (rules : List ReadyRule) : ofRules rule [] rules = ⟨[], [], []⟩ := by
  cases rules with
  | nil => rfl
  | cons ready others => exact if_pos rfl

/-- A run goes on from what its first pass leaves. -/
theorem nodes_cons (rule : Nat) (nodes : List Node) (ready : ReadyRule)
    (others : List ReadyRule) :
    (ofRules rule nodes (ready :: others)).nodes =
      (ofRules (rule + 1) (ready.pass rule nodes).nodes others).nodes := by
  cases nodes with
  | nil => rw [ready.pass_nil, Pass.empty, ofRules_nil, ofRules_nil]
  | cons node nodes => rfl

/-- A run reports what its first pass reports, and then what the others do. -/
theorem applications_cons (rule : Nat) (nodes : List Node) (ready : ReadyRule)
    (others : List ReadyRule) :
    (ofRules rule nodes (ready :: others)).applications =
      (ready.pass rule nodes).applications ++
        (ofRules (rule + 1) (ready.pass rule nodes).nodes others).applications := by
  cases nodes with
  | nil =>
    rw [ready.pass_nil, Pass.empty, ofRules_nil, ofRules_nil]
    rfl
  | cons node nodes => rfl

end Run

end ShallowParse
