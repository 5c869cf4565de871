/-
This file proves that the trace of a sentence tells the whole story of its tree. To
replay the trace, start from the words and, for each report in turn, put one phrase
in place of the nodes that cover exactly the words reported. The replay never gets
stuck and ends with the children of the root.

Within a pass the nodes before a match are already as the pass leaves them, and the
nodes after it as the pass has found them. So the offset of a match counts the words
of both rows alike, and a pass is replayed segment by segment.
-/

import ShallowParse.Proofs.Chunking.Segments
import ShallowParse.Proofs.Grammar.Acceptance

namespace ShallowParse

/-! ### Replays -/

/-- Parts a row of nodes after so many words, unless a node holds words of both parts. -/
def Node.partAfter? : Nat → List Node → Option (List Node × List Node)
  | 0, nodes => some ([], nodes)
  | _ + 1, [] => none
  | words + 1, node :: nodes =>
    if node.leafCount ≤ words + 1 then
      (partAfter? (words + 1 - node.leafCount) nodes).map fun (before, after) =>
        (node :: before, after)
    else none

/-- The nodes at the top, and the phrases built so far in the order in which they were built. -/
structure Replay where
  nodes : List Node
  phrases : List Node

namespace Replay

def start (tokens : List Token) : Replay := ⟨tokens.map .leaf, []⟩

/-- Puts a phrase in place of the nodes that cover exactly the words of an application. -/
def applyOne? (replay : Replay) (application : Application) : Option Replay := do
  let (before, later) ← Node.partAfter? application.start replay.nodes
  let (children, after) ← Node.partAfter? (application.stop - application.start) later
  let phrase := Node.phrase application.label children
  return ⟨before ++ phrase :: after, replay.phrases ++ [phrase]⟩

/-- Applies one application after the other. -/
def applyAll? (replay : Replay) (applications : List Application) : Option Replay :=
  applications.foldlM applyOne? replay

theorem applyAll?_append (replay : Replay) (first second : List Application) :
    replay.applyAll? (first ++ second) = (replay.applyAll? first).bind (applyAll? · second) :=
  List.foldlM_append

end Replay

/-! ### Rows in which every node covers a word -/

namespace Node

/-- Whether every node of a row covers a word. -/
def CoverWords (nodes : List Node) : Prop :=
  ∀ node ∈ nodes, 0 < node.leafCount

theorem coverWords_append {before after : List Node} :
    CoverWords (before ++ after) ↔ CoverWords before ∧ CoverWords after :=
  List.forall_mem_append

theorem CoverWords.pos_of_ne_nil {nodes : List Node} (cover : CoverWords nodes)
    (notEmpty : nodes ≠ []) : 0 < leafCountOfAll nodes := by
  cases nodes with
  | nil => exact absurd rfl notEmpty
  | cons node others => exact Nat.add_pos_left (cover node List.mem_cons_self) _

theorem partAfter?_zero (nodes : List Node) : partAfter? 0 nodes = some ([], nodes) := by
  rw [partAfter?]

theorem partAfter?_cons {words : Nat} (some : 0 < words) (node : Node) (nodes : List Node) :
    partAfter? words (node :: nodes) =
      if node.leafCount ≤ words then
        (partAfter? (words - node.leafCount) nodes).map fun (before, after) =>
          (node :: before, after)
      else none := by
  cases words with
  | zero => cases some
  | succ words => rfl

/-- A row is parted after the words of its first nodes. -/
theorem partAfter?_append {before : List Node} (cover : CoverWords before) (after : List Node) :
    partAfter? (leafCountOfAll before) (before ++ after) = some (before, after) := by
  induction before with
  | nil => exact partAfter?_zero after
  | cons node before inductionHypothesis =>
    obtain ⟨coversNode, coverRest⟩ := List.forall_mem_cons.mp cover
    have counted : leafCountOfAll (node :: before) = node.leafCount + leafCountOfAll before := rfl
    rw [List.cons_append, counted, partAfter?_cons (Nat.add_pos_left coversNode _),
      if_pos (Nat.le_add_right _ _), Nat.add_sub_cancel_left, inductionHypothesis coverRest]
    rfl

end Node

open Node Segment

/-- The words of an application are found if nodes cover exactly them. -/
theorem Replay.applyOne?_eq {before children : List Node} (coverBefore : CoverWords before)
    (coverChildren : CoverWords children) (after built : List Node) {application : Application}
    (start : application.start = leafCountOfAll before)
    (stop : application.stop = application.start + leafCountOfAll children) :
    applyOne? ⟨before ++ children ++ after, built⟩ application =
      some ⟨before ++ .phrase application.label children :: after,
        built ++ [.phrase application.label children]⟩ := by
  rw [applyOne?, stop, Nat.add_sub_cancel_left, start, List.append_assoc]
  simp only [partAfter?_append coverBefore, partAfter?_append coverChildren, Option.bind_eq_bind,
    Option.bind_some, Option.pure_def]

open Replay

/-! ### One rule -/

namespace Segment

theorem leafCount_result_pos {segment : Segment} (cover : CoverWords segment.nodes)
    (label : String) : 0 < (segment.result label).leafCount := by
  cases segment with
  | kept node => exact cover node List.mem_cons_self
  | built first others => exact cover.pos_of_ne_nil (List.cons_ne_nil _ _)

theorem coverWords_results {label : String} {segments : List Segment}
    (cover : CoverWords (nodesOfAll segments)) : CoverWords (segments.map (result label)) := by
  induction segments with
  | nil => exact List.forall_mem_nil _
  | cons segment segments inductionHypothesis =>
    rw [nodesOfAll_cons, coverWords_append] at cover
    exact List.forall_mem_cons.mpr ⟨leafCount_result_pos cover.1 label, inductionHypothesis cover.2⟩

/-- The phrases after a pass are those before it and the ones built over segments. -/
theorem phrases_perm (label : String) (segments : List Segment) :
    (phrasesOfAll (segments.map (result label))).Perm
      (segments.flatMap (phrases label) ++ phrasesOfAll (nodesOfAll segments)) := by
  induction segments with
  | nil => exact List.Perm.refl _
  | cons segment segments inductionHypothesis =>
    have ofFirst : phrasesOfAll [segment.result label] =
        segment.phrases label ++ phrasesOfAll segment.nodes := by
      cases segment with
      | kept node => rfl
      | built first others =>
        show List.filter (fun node : Node => !node.isLeaf)
          ((_ :: descendantsOfAll (first :: others)) ++ []) = _
        rw [List.append_nil]
        rfl
    rw [List.map_cons, ← List.singleton_append, phrasesOfAll_append, ofFirst, List.flatMap_cons,
      nodesOfAll_cons, phrasesOfAll_append, List.append_assoc, List.append_assoc]
    refine List.Perm.append_left _ ?_
    exact (inductionHypothesis.append_left _).trans (List.perm_append_comm_assoc _ _ _)

end Segment

namespace ReadyRule

/-- The segments of a pass are replayed after the nodes that the pass has left before them. -/
theorem applyAll?_passOf (ready : ReadyRule) (rule : Nat) (before built : List Node)
    (segments : List Segment) (cover : CoverWords (before ++ nodesOfAll segments)) :
    applyAll? ⟨before ++ nodesOfAll segments, built⟩
        (ready.passOf rule (leafCountOfAll before) segments).applications =
      some ⟨before ++ segments.map (result ready.rule.label),
        built ++ segments.flatMap (Segment.phrases ready.rule.label)⟩ := by
  induction segments generalizing before built with
  | nil => simp [passOf, Pass.empty, applyAll?, nodesOfAll]
  | cons segment segments inductionHypothesis =>
    obtain ⟨coverBefore, coverLater⟩ := coverWords_append.mp cover
    rw [nodesOfAll_cons, coverWords_append] at coverLater
    have coverResult : CoverWords [segment.result ready.rule.label] :=
      List.forall_mem_singleton.mpr (leafCount_result_pos coverLater.1 _)
    -- What the pass leaves covers the same words, so the offset counts these as well.
    have ofRest := inductionHypothesis (before ++ [segment.result ready.rule.label])
      (built ++ segment.phrases ready.rule.label)
      (coverWords_append.mpr ⟨coverWords_append.mpr ⟨coverBefore, coverResult⟩, coverLater.2⟩)
    rw [leafCountOfAll_append, List.append_assoc, List.append_assoc, List.singleton_append,
      List.singleton_append, List.append_assoc, ← List.map_cons, ← List.flatMap_cons] at ofRest
    cases segment with
    | kept node =>
      rw [nodesOfAll_cons]
      rw [Segment.phrases, List.append_nil] at ofRest
      exact ofRest
    | built first others =>
      let application := ready.application rule (leafCountOfAll before)
        (.phrase ready.rule.label (first :: others))
      have applied : applyOne? ⟨before ++ (first :: others) ++ nodesOfAll segments, built⟩
          application = some _ :=
        applyOne?_eq coverBefore coverLater.1 (nodesOfAll segments) built rfl rfl
      rw [nodesOfAll_cons, ← List.append_assoc]
      show (applyOne? _ application).bind (applyAll? · _) = _
      rw [Segment.nodes, applied]
      exact ofRest

end ReadyRule

/-! ### The order of reports -/

/-- Whether one application may come before another one in a trace: it is of an earlier rule, or of
the same rule and ends where the other begins, or earlier. -/
def Application.Precedes (first second : Application) : Prop :=
  first.rule < second.rule ∨ first.rule = second.rule ∧ first.stop ≤ second.start

/-- The segments of a pass are reported from left to right. -/
theorem ReadyRule.precedes_passOf (ready : ReadyRule) (rule offset : Nat)
    (segments : List Segment) :
    (ready.passOf rule offset segments).applications.Pairwise Application.Precedes ∧
      ∀ application ∈ (ready.passOf rule offset segments).applications,
        application.rule = rule ∧ offset ≤ application.start := by
  induction segments generalizing offset with
  | nil => exact ⟨List.Pairwise.nil, List.forall_mem_nil _⟩
  | cons segment segments inductionHypothesis =>
    cases segment with
    | kept node =>
      obtain ⟨ordered, later⟩ := inductionHypothesis (offset + node.leafCount)
      refine ⟨ordered, fun application member => ?_⟩
      obtain ⟨isRule, begins⟩ := later application member
      exact ⟨isRule, Nat.le_of_add_right_le begins⟩
    | built first others =>
      obtain ⟨ordered, later⟩ :=
        inductionHypothesis (offset + leafCount (.phrase ready.rule.label (first :: others)))
      refine ⟨List.Pairwise.cons (fun application member => ?_) ordered,
        List.forall_mem_cons.mpr ⟨⟨rfl, Nat.le_refl _⟩, fun application member => ?_⟩⟩
      · obtain ⟨isRule, begins⟩ := later application member
        exact Or.inr ⟨isRule.symm, begins⟩
      · obtain ⟨isRule, begins⟩ := later application member
        exact ⟨isRule, Nat.le_of_add_right_le begins⟩

theorem ReadyRule.rule_of_mem_pass (ready : ReadyRule) (rule : Nat) (nodes : List Node) :
    ∀ application ∈ (ready.pass rule nodes).applications, application.rule = rule := by
  obtain ⟨segments, _, _, isPass⟩ := ready.exists_segments rule nodes
  rw [isPass]
  exact fun application member => ((ready.precedes_passOf rule 0 segments).2 application member).1

/-! ### All rules -/

namespace Run

/-- Rules report in their order, each from left to right. -/
theorem precedes_ofRules (rules : List ReadyRule) (rule : Nat) (nodes : List Node) :
    (ofRules rule nodes rules).applications.Pairwise Application.Precedes ∧
      ∀ application ∈ (ofRules rule nodes rules).applications, rule ≤ application.rule := by
  induction rules generalizing rule nodes with
  | nil => exact ⟨List.Pairwise.nil, List.forall_mem_nil _⟩
  | cons ready others inductionHypothesis =>
    obtain ⟨orderedLater, later⟩ := inductionHypothesis (rule + 1) (ready.pass rule nodes).nodes
    obtain ⟨segments, _, _, isPass⟩ := ready.exists_segments rule nodes
    obtain ⟨ordered, here⟩ := ready.precedes_passOf rule 0 segments
    rw [← isPass] at ordered here
    rw [applications_cons]
    refine ⟨List.pairwise_append.mpr ⟨ordered, orderedLater, ?_⟩,
      List.forall_mem_append.mpr ⟨?_, ?_⟩⟩
    · intro first isHere second isLater
      rw [Application.Precedes, (here first isHere).1]
      exact Or.inl (later second isLater)
    · exact fun application member => (here application member).1.ge
    · exact fun application member => Nat.le_of_succ_le (later application member)

/-- What the first rule of a run reports is what it reports in its pass, and the others report in
the rest of the run. -/
theorem filter_applications_cons (place rule : Nat) (nodes : List Node) (ready : ReadyRule)
    (others : List ReadyRule) :
    (ofRules place nodes (ready :: others)).applications.filter (·.rule = rule) =
      if rule = place then (ready.pass place nodes).applications
      else (ofRules (place + 1) (ready.pass place nodes).nodes others).applications.filter
        (·.rule = rule) := by
  have ofPass := ready.rule_of_mem_pass place nodes
  have ofOthers := (precedes_ofRules others (place + 1) (ready.pass place nodes).nodes).2
  rw [applications_cons, List.filter_append]
  split
  · rename_i isPlace
    subst isPlace
    rw [List.filter_eq_self.mpr, List.filter_eq_nil_iff.mpr, List.append_nil]
    · intro application member
      rw [decide_eq_true_iff]
      exact Nat.ne_of_gt (ofOthers application member)
    · exact fun application member => decide_eq_true (ofPass application member)
  · rename_i isOther
    rw [List.filter_eq_nil_iff.mpr, List.nil_append]
    intro application member
    rw [decide_eq_true_iff, ofPass application member]
    exact Ne.symm isOther

/-- Whether an application reports a phrase that one of the rules, the first of which has the given
place, builds over nodes that cover the words. -/
def Reports (rules : List ReadyRule) (rule : Nat) (tokens : List Token) (application : Application)
    (phrase : Node) : Prop :=
  ∃ place ready stream, rules[place]? = some ready ∧ application.rule = rule + place ∧
    leavesOfAll stream = tokens ∧ CoverWords stream ∧
    ready.Builds application.rule stream application phrase

/-- What the rules after the first one report is reported by all rules. -/
theorem Reports.ofOthers {ready : ReadyRule} {others : List ReadyRule} {rule : Nat}
    {tokens : List Token} {application : Application} {phrase : Node}
    (reports : Reports others (rule + 1) tokens application phrase) :
    Reports (ready :: others) rule tokens application phrase := by
  obtain ⟨place, later, stream, isLater, isRule, words, cover, builds⟩ := reports
  exact ⟨place + 1, later, stream, isLater, by omega, words, cover, builds⟩

/-- A run is replayed by what it reports. The phrases built are those that it reports, and with the
phrases from before they are all there are in the end. -/
theorem exists_phrases (rules : List ReadyRule) (rule : Nat) (nodes : List Node)
    (cover : CoverWords nodes) (built : List Node) :
    ∃ phrases,
      applyAll? ⟨nodes, built⟩ (ofRules rule nodes rules).applications =
        some ⟨(ofRules rule nodes rules).nodes, built ++ phrases⟩ ∧
      List.Forall₂ (Reports rules rule (leavesOfAll nodes))
        (ofRules rule nodes rules).applications phrases ∧
      (phrasesOfAll (ofRules rule nodes rules).nodes).Perm (phrases ++ phrasesOfAll nodes) := by
  induction rules generalizing rule nodes built with
  | nil =>
    refine ⟨[], ?_, List.Forall₂.nil, List.Perm.refl _⟩
    rw [List.append_nil]
    rfl
  | cons ready others inductionHypothesis =>
    have sameWords : leavesOfAll (ready.pass rule nodes).nodes = leavesOfAll nodes :=
      ready.leavesOfAll_scan rule _ 0 0 nodes
    obtain ⟨segments, rfl, answers, isPass⟩ := ready.exists_segments rule nodes
    rw [nodes_cons, applications_cons]
    rw [isPass] at sameWords ⊢
    rw [ready.nodes_passOf] at sameWords ⊢
    have ofPass := ready.applyAll?_passOf rule [] built segments cover
    have reported := ready.builds_passOf rule [] segments answers
    obtain ⟨phrases, replayed, ofOthers, all⟩ := inductionHypothesis (rule + 1) _
      (coverWords_results cover) (built ++ segments.flatMap (Segment.phrases ready.rule.label))
    refine ⟨segments.flatMap (Segment.phrases ready.rule.label) ++ phrases, ?_, ?_, ?_⟩
    · rw [applyAll?_append, ← List.append_assoc, ← replayed]
      exact congrArg (Option.bind · _) ofPass
    · refine List.rel_append (reported.imp fun application phrase builds => ?_)
        (ofOthers.imp fun application phrase reports => (sameWords ▸ reports).ofOthers)
      have isRule : application.rule = rule := by
        obtain ⟨_, _, _, _, _, _, _, rfl⟩ := builds
        rfl
      exact ⟨0, ready, nodesOfAll segments, rfl, isRule, rfl, cover, isRule ▸ builds⟩
    -- Later phrases stand around earlier ones, so the order in the tree is another one.
    · refine all.trans ?_
      rw [List.append_assoc]
      exact ((phrases_perm _ segments).append_left phrases).trans (List.perm_append_comm_assoc _ _ _)

end Run

/-! ### Sentences -/

/-- Whether an application says what it is about: the label is that of its rule, and the text is made
of the words in its range, of which there is one at least, with spaces between them. -/
structure Application.Describes (rules : List Rule) (tokens : List Token)
    (application : Application) : Prop where
  label : rules[application.rule]?.map Rule.label = some application.label
  notEmpty : application.start < application.stop
  inSentence : application.stop ≤ tokens.length
  text : application.text = " ".intercalate
    (((tokens.drop application.start).take (application.stop - application.start)).map Token.text)

/-- The words of some nodes of a row are those between the words before and the words after. -/
theorem Node.leaves_between (before children after : List Node) :
    ((leavesOfAll (before ++ children ++ after)).drop (leafCountOfAll before)).take
      (leafCountOfAll children) = leavesOfAll children := by
  rw [leavesOfAll_append, leavesOfAll_append, List.append_assoc, ← length_leavesOfAll before,
    List.drop_left, ← length_leavesOfAll children, List.take_left]

/-- A report describes the phrase that its rule has built. -/
theorem Run.Reports.describes {grammar : Grammar} {tokens : List Token} {application : Application}
    {phrase : Node} (reports : Reports grammar.ready 0 tokens application phrase) :
    application.Describes grammar.rules tokens := by
  obtain ⟨place, ready, _, isReady, isPlace, rfl, cover, before, children, after, rfl, notEmpty, _,
    rfl, isApplication⟩ := reports
  have start : application.start = leafCountOfAll before := by rw [isApplication]; rfl
  have stop : application.stop = leafCountOfAll before + leafCountOfAll children := by
    rw [isApplication]; rfl
  have text : application.text = " ".intercalate ((leavesOfAll children).map Token.text) := by
    rw [isApplication]; rfl
  refine ⟨?_, ?_, ?_, ?_⟩
  · rw [isPlace, Nat.zero_add, Grammar.rules, List.getElem?_map, isReady, isApplication]
    rfl
  · have someWord := (coverWords_append.mp (coverWords_append.mp cover).1).2.pos_of_ne_nil notEmpty
    omega
  · rw [length_leavesOfAll, leafCountOfAll_append, leafCountOfAll_append, stop]
    exact Nat.le_add_right _ _
  · rw [text, stop, start, Nat.add_sub_cancel_left, leaves_between]

theorem Node.coverWords_map_leaf (tokens : List Token) : CoverWords (tokens.map leaf) := by
  intro node member
  obtain ⟨token, _, rfl⟩ := List.mem_map.mp member
  exact Nat.zero_lt_one

namespace Chunker

theorem run_eq (chunker : Chunker) {tokens : List Token}
    (complete : ∀ token ∈ tokens, token.IsComplete) :
    chunker.run tokens = .ok (Run.ofRules 0 (tokens.map .leaf) chunker.grammar.ready) := by
  rw [run, (malformed?_eq_none_iff tokens 0).mpr complete]

theorem chunk_eq_of_complete (chunker : Chunker) {tokens : List Token}
    (complete : ∀ token ∈ tokens, token.IsComplete) :
    chunker.chunk tokens =
      .ok ⟨chunker.rootLabel, (Run.ofRules 0 (tokens.map .leaf) chunker.grammar.ready).nodes⟩ := by
  rw [chunk, run_eq chunker complete]
  rfl

theorem chunkTraced_eq (chunker : Chunker) {tokens : List Token}
    (complete : ∀ token ∈ tokens, token.IsComplete) :
    chunker.chunkTraced tokens =
      .ok (⟨chunker.rootLabel, (Run.ofRules 0 (tokens.map .leaf) chunker.grammar.ready).nodes⟩,
        (Run.ofRules 0 (tokens.map .leaf) chunker.grammar.ready).applications) := by
  rw [chunkTraced, run_eq chunker complete]
  rfl

/-- The trace of a sentence tells how its tree came about. Replayed from the words it ends with the
children of the root, and there is one report for each phrase. Rules report in their order and each
of them from left to right, with the label of the rule and the text of the words. -/
theorem chunkTraced_replays (chunker : Chunker) {tokens : List Token}
    (complete : ∀ token ∈ tokens, token.IsComplete) :
    ∃ tree trace replay, chunker.chunk tokens = .ok tree ∧
      chunker.chunkTraced tokens = .ok (tree, trace) ∧
      (Replay.start tokens).applyAll? trace = some replay ∧ replay.nodes = tree.children ∧
      trace.Pairwise Application.Precedes ∧
      (∀ application ∈ trace, application.Describes chunker.grammar.rules tokens) ∧
      trace.length = tree.phrases.length := by
  have isRun := chunker.run_eq complete
  obtain ⟨phrases, replayed, reported, all⟩ :=
    Run.exists_phrases chunker.grammar.ready 0 _ (coverWords_map_leaf tokens) []
  rw [leavesOfAll_map_leaf] at reported
  refine ⟨⟨chunker.rootLabel, _⟩, _, _, ?_, ?_, replayed, rfl,
    (Run.precedes_ofRules _ _ _).1, ?_, ?_⟩
  · rw [chunk, isRun]
    rfl
  · rw [chunkTraced, isRun]
    rfl
  · have described : List.Forall₂ (fun application phrase =>
        application.Describes chunker.grammar.rules tokens ∧
          Run.Reports chunker.grammar.ready 0 tokens application phrase) _ _ :=
      reported.imp fun _ _ reports => ⟨reports.describes, reports⟩
    exact ((List.forall₂_and_left _ _).mp described).1
  · rw [phrasesOfAll_map_leaf, List.append_nil] at all
    exact reported.length_eq.trans all.length_eq.symm

theorem chunkTraced_replays_sentence :
    (∀ token ∈ Reference.sentence, token.IsComplete) ∧
      ∃ tree trace replay, chunk ⟨Reference.ready, "S"⟩ Reference.sentence = .ok tree ∧
        chunkTraced ⟨Reference.ready, "S"⟩ Reference.sentence = .ok (tree, trace) ∧
        (Replay.start Reference.sentence).applyAll? trace = some replay ∧
        replay.nodes = tree.children ∧ trace.Pairwise Application.Precedes ∧
        trace.length = tree.phrases.length ∧
        tree.written = "(S (NP The/DT little/JJ dog/NN) " ++
          "(VP chased/VBD (NP cats/NNS) (PP on/IN (NP the/DT mat/NN))))" := by
  obtain ⟨tree, trace, replay, isTree, isTrace, replayed, same, ordered, _, counted⟩ :=
    chunkTraced_replays ⟨Reference.ready, "S"⟩ Reference.sentence_isComplete
  have isWritten : (chunk ⟨Reference.ready, "S"⟩ Reference.sentence).map Tree.written =
      .ok ("(S (NP The/DT little/JJ dog/NN) " ++
        "(VP chased/VBD (NP cats/NNS) (PP on/IN (NP the/DT mat/NN))))") := by decide +kernel
  rw [isTree] at isWritten
  exact ⟨Reference.sentence_isComplete, tree, trace, replay, isTree, isTrace, replayed, same,
    ordered, counted, Except.ok.inj isWritten⟩

end Chunker

end ShallowParse
