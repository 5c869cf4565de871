/-
This file proves that what becomes of a sentence depends on the tags of its words only.
A rule sees nothing of a node but its symbol. So a pass parts two rows of the same
symbols alike, even where a word of one row stands across from a phrase of the other.
Where the nodes of both rows have the same forms, so have those that the pass leaves,
and through all rules the two sentences stay of one form.
-/

import ShallowParse.Proofs.Chunking.Replay
import ShallowParse.Proofs.Tree.Rewording

namespace ShallowParse

open Segment

/-! ### Rows that look alike -/

namespace Segment

variable {View : Type} {view : Node → View}

/-- What is left of a segment when nothing but a view of each node is left. -/
def seen (view : Node → View) (segment : Segment) : Option Nat × List View :=
  (segment.answer, segment.nodes.map view)

theorem length_nodes_of_seen {segment other : Segment}
    (alike : other.seen view = segment.seen view) :
    other.nodes.length = segment.nodes.length := by
  have sameLength := congrArg List.length (Prod.mk.inj alike).2
  rwa [List.length_map, List.length_map] at sameLength

theorem exists_segment_of_views (segment : Segment) {nodes : List Node}
    (alike : nodes.map view = segment.nodes.map view) :
    ∃ other : Segment, other.nodes = nodes ∧ other.seen view = segment.seen view := by
  cases segment with
  | kept node =>
    obtain ⟨other, rfl, _⟩ := List.map_eq_singleton_iff.mp alike
    exact ⟨kept other, rfl, Prod.ext rfl alike⟩
  | built first others =>
    obtain ⟨other, rest, rfl, _, ofRest⟩ := List.map_eq_cons_iff.mp alike
    have sameLength := congrArg List.length ofRest
    rw [List.length_map, List.length_map] at sameLength
    refine ⟨built other rest, rfl, Prod.ext ?_ alike⟩
    show some (rest.length + 1) = some (others.length + 1)
    rw [sameLength]

/-- A row that looks like the nodes of segments is parted like them. -/
theorem exists_segments_of_views (segments : List Segment) {nodes : List Node}
    (alike : nodes.map view = (nodesOfAll segments).map view) :
    ∃ others, nodesOfAll others = nodes ∧ others.map (seen view) = segments.map (seen view) := by
  induction segments generalizing nodes with
  | nil =>
    obtain rfl := List.map_eq_nil_iff.mp alike
    exact ⟨[], rfl, rfl⟩
  | cons segment segments inductionHypothesis =>
    rw [nodesOfAll_cons, List.map_append] at alike
    obtain ⟨here, later, rfl, ofFirst, ofRest⟩ := List.map_eq_append_iff.mp alike
    obtain ⟨other, rfl, sameFirst⟩ := segment.exists_segment_of_views ofFirst
    obtain ⟨others, rfl, sameRest⟩ := inductionHypothesis ofRest
    exact ⟨other :: others, nodesOfAll_cons _ _, congrArg₂ List.cons sameFirst sameRest⟩

end Segment

namespace ReadyRule

variable {View : Type} {view : Node → View}

/-- The matcher answers segments that look alike alike. -/
theorem Answers.of_seen {ready : ReadyRule} {symbols : SymbolText} {index : Nat}
    {segments others : List Segment} (answers : ready.Answers symbols index segments)
    (alike : others.map (seen view) = segments.map (seen view)) :
    ready.Answers symbols index others := by
  induction segments generalizing index others with
  | nil =>
    obtain rfl := List.map_eq_nil_iff.mp alike
    trivial
  | cons segment segments inductionHypothesis =>
    obtain ⟨here, later⟩ := answers
    obtain ⟨other, rest, rfl, ofFirst, ofRest⟩ := List.map_eq_cons_iff.mp alike
    refine ⟨here.trans (Prod.mk.inj ofFirst).1.symm, ?_⟩
    rw [length_nodes_of_seen ofFirst]
    exact inductionHypothesis later ofRest

/-- Two rows that look alike are parted alike by a pass, if the view shows the symbols. -/
theorem exists_segments_alike (ready : ReadyRule) (rule : Nat) (symbolOf : View → String)
    (shows : ∀ node, symbolOf (view node) = node.symbol) {nodes others : List Node}
    (alike : others.map view = nodes.map view) :
    ∃ segments otherSegments, nodesOfAll segments = nodes ∧ nodesOfAll otherSegments = others ∧
      otherSegments.map (seen view) = segments.map (seen view) ∧
      ready.pass rule nodes = ready.passOf rule 0 segments ∧
      ready.pass rule others = ready.passOf rule 0 otherSegments := by
  obtain ⟨segments, rfl, answers, isPass⟩ := ready.exists_segments rule nodes
  obtain ⟨otherSegments, rfl, sameSegments⟩ := exists_segments_of_views segments alike
  have sameText : symbolText (nodesOfAll otherSegments) = symbolText (nodesOfAll segments) := by
    have isSymbol : symbolOf ∘ view = Node.symbol := funext shows
    rw [symbolText, symbolText, ← isSymbol, ← List.map_map, ← List.map_map, alike]
  refine ⟨segments, otherSegments, rfl, rfl, sameSegments, isPass, ?_⟩
  rw [pass, sameText]
  exact ready.scan_nodesOfAll rule _ 0 0 _ (answers.of_seen sameSegments)

end ReadyRule

/-! ### Rows of one form -/

/-- A report without the words that it is about. -/
def Application.withoutText (application : Application) : Application :=
  { application with text := "" }

theorem Segment.form_result {segment other : Segment}
    (alike : other.seen Node.form = segment.seen Node.form) (label : String) :
    (other.result label).form = (segment.result label).form := by
  obtain ⟨sameAnswer, sameForms⟩ := Prod.mk.inj alike
  cases segment with
  | kept node =>
    cases other with
    | kept other => exact List.head_eq_of_cons_eq sameForms
    | built first others => cases sameAnswer
  | built first others =>
    cases other with
    | kept other => cases sameAnswer
    | built other rest =>
      show Node.phrase label (Node.formOfAll (other :: rest)) =
        .phrase label (Node.formOfAll (first :: others))
      rw [Node.formOfAll_eq_map, Node.formOfAll_eq_map]
      exact congrArg _ sameForms

theorem Node.leafCount_eq_of_form {node other : Node} (same : other.form = node.form) :
    other.leafCount = node.leafCount := by
  rw [← leafCount_form, same, leafCount_form]

namespace ReadyRule

/-- Segments of the same forms leave nodes of the same forms. -/
theorem forms_passOf (ready : ReadyRule) (rule offset : Nat) {segments others : List Segment}
    (alike : others.map (seen Node.form) = segments.map (seen Node.form)) :
    (ready.passOf rule offset others).nodes.map Node.form =
      (ready.passOf rule offset segments).nodes.map Node.form := by
  rw [nodes_passOf, nodes_passOf]
  induction segments generalizing others with
  | nil =>
    obtain rfl := List.map_eq_nil_iff.mp alike
    rfl
  | cons segment segments inductionHypothesis =>
    obtain ⟨other, rest, rfl, ofFirst, ofRest⟩ := List.map_eq_cons_iff.mp alike
    exact congrArg₂ List.cons (form_result ofFirst _) (inductionHypothesis ofRest)

theorem withoutText_application (ready : ReadyRule) (rule offset : Nat) {phrase other : Node}
    (sameWords : other.leafCount = phrase.leafCount) :
    (ready.application rule offset other).withoutText =
      (ready.application rule offset phrase).withoutText := by
  rw [application, application, Application.withoutText, Application.withoutText, sameWords]

theorem passOf_built (ready : ReadyRule) (rule offset : Nat) (first : Node) (others : List Node)
    (segments : List Segment) :
    ready.passOf rule offset (built first others :: segments) =
      Pass.build (ready.application rule offset (.phrase ready.rule.label (first :: others)))
        (.phrase ready.rule.label (first :: others))
        (ready.passOf rule
          (offset + (Node.phrase ready.rule.label (first :: others)).leafCount) segments) := rfl

/-- Segments of the same forms make the same reports, but for their words. -/
theorem withoutText_passOf (ready : ReadyRule) (rule offset : Nat) {segments others : List Segment}
    (alike : others.map (seen Node.form) = segments.map (seen Node.form)) :
    (ready.passOf rule offset others).applications.map Application.withoutText =
      (ready.passOf rule offset segments).applications.map Application.withoutText := by
  induction segments generalizing offset others with
  | nil =>
    obtain rfl := List.map_eq_nil_iff.mp alike
    rfl
  | cons segment segments inductionHypothesis =>
    obtain ⟨other, later, rfl, ofFirst, ofRest⟩ := List.map_eq_cons_iff.mp alike
    -- The later segments begin at the same word in both rows.
    have sameWords := Node.leafCount_eq_of_form (form_result ofFirst ready.rule.label)
    cases segment with
    | kept node =>
      cases other with
      | kept other =>
        rw [result, result] at sameWords
        rw [passOf, passOf, sameWords]
        exact inductionHypothesis _ ofRest
      | built first others => cases ofFirst
    | built first others =>
      cases other with
      | kept other => cases ofFirst
      | built other rest =>
        rw [result, result] at sameWords
        rw [passOf_built, passOf_built, sameWords]
        exact congrArg₂ List.cons (ready.withoutText_application rule offset sameWords)
          (inductionHypothesis _ ofRest)

end ReadyRule

/-- Rows of the same forms are of the same forms after all rules, which report the same of both but
for the words. -/
theorem Run.forms_ofRules (rules : List ReadyRule) (rule : Nat) {nodes others : List Node}
    (alike : others.map Node.form = nodes.map Node.form) :
    (ofRules rule others rules).nodes.map Node.form =
        (ofRules rule nodes rules).nodes.map Node.form ∧
      (ofRules rule others rules).applications.map Application.withoutText =
        (ofRules rule nodes rules).applications.map Application.withoutText := by
  induction rules generalizing rule nodes others with
  | nil => exact ⟨alike, rfl⟩
  | cons ready rules inductionHypothesis =>
    obtain ⟨segments, otherSegments, _, _, alikeSegments, isPass, isOtherPass⟩ :=
      ready.exists_segments_alike rule Node.symbol Node.symbol_form alike
    have forms := ready.forms_passOf rule 0 alikeSegments
    have reports := ready.withoutText_passOf rule 0 alikeSegments
    rw [← isPass, ← isOtherPass] at forms reports
    obtain ⟨formsAfter, reportsAfter⟩ := inductionHypothesis (rule + 1) forms
    rw [nodes_cons, nodes_cons, applications_cons, applications_cons, List.map_append,
      List.map_append]
    exact ⟨formsAfter, congrArg₂ List.append reports reportsAfter⟩

/-! ### Sentences -/

/-- Sentences of the same tags are of the same forms. -/
theorem Node.forms_map_leaf {first second : List Token}
    (sameTags : first.map Token.tag = second.map Token.tag) :
    (second.map leaf).map form = (first.map leaf).map form := by
  have ofTag : form ∘ leaf = (fun tag => leaf ⟨"", tag⟩) ∘ Token.tag := rfl
  rw [List.map_map, List.map_map, ofTag, ← List.map_map, ← List.map_map, sameTags]

namespace Chunker

/-- Two sentences with the same tags get the same tree but for the texts of the words: with the words
of the second sentence in place of its own the first tree is the second. So the shapes and heights of
the trees are the same, and the traces report the same labels of the same rules over the same ranges.
Of any two rows of nodes with the same symbols a rule keeps the nodes at the same places and builds
phrases over the nodes at the same places. -/
theorem chunk_reworded (chunker : Chunker) {first second : List Token}
    (completeFirst : ∀ token ∈ first, token.IsComplete)
    (completeSecond : ∀ token ∈ second, token.IsComplete)
    (sameTags : first.map Token.tag = second.map Token.tag) :
    (∃ tree trace other otherTrace,
      chunker.chunk first = .ok tree ∧ chunker.chunk second = .ok other ∧
      chunker.chunkTraced first = .ok (tree, trace) ∧
      chunker.chunkTraced second = .ok (other, otherTrace) ∧
      tree.reworded second = other ∧ tree.shape = other.shape ∧ tree.height = other.height ∧
      trace.map Application.withoutText = otherTrace.map Application.withoutText) ∧
    ∀ (ready : ReadyRule) (rule : Nat) (nodes others : List Node),
      nodes.map Node.symbol = others.map Node.symbol →
      ∃ segments otherSegments, nodesOfAll segments = nodes ∧ nodesOfAll otherSegments = others ∧
        segments.map answer = otherSegments.map answer ∧
        (ready.pass rule nodes).nodes = segments.map (result ready.rule.label) ∧
        (ready.pass rule others).nodes = otherSegments.map (result ready.rule.label) := by
  constructor
  · obtain ⟨forms, reports⟩ :=
      Run.forms_ofRules chunker.grammar.ready 0 (Node.forms_map_leaf sameTags)
    let tree : Tree :=
      ⟨chunker.rootLabel, (Run.ofRules 0 (first.map .leaf) chunker.grammar.ready).nodes⟩
    let other : Tree :=
      ⟨chunker.rootLabel, (Run.ofRules 0 (second.map .leaf) chunker.grammar.ready).nodes⟩
    have same : tree.SameForm other := by
      refine ⟨rfl, ?_⟩
      rw [Node.formOfAll_eq_map, Node.formOfAll_eq_map]
      exact forms.symm
    have words : other.leaves = second := by
      show Node.leavesOfAll (Run.ofRules 0 _ _).nodes = second
      rw [Run.leavesOfAll_ofRules, Node.leavesOfAll_map_leaf]
    exact ⟨tree, _, other, _, chunk_eq_of_complete _ completeFirst,
      chunk_eq_of_complete _ completeSecond, chunkTraced_eq _ completeFirst,
      chunkTraced_eq _ completeSecond, words ▸ same.reworded_eq, same.shape_eq, same.height_eq,
      reports.symm⟩
  · intro ready rule nodes others sameSymbols
    obtain ⟨segments, otherSegments, isRow, isOtherRow, alike, isPass, isOtherPass⟩ :=
      ready.exists_segments_alike rule id (fun _ => rfl) sameSymbols.symm
    refine ⟨segments, otherSegments, isRow, isOtherRow, ?_, ?_, ?_⟩
    · have answers := congrArg (List.map Prod.fst) alike
      rw [List.map_map, List.map_map] at answers
      exact answers.symm
    · rw [isPass, ready.nodes_passOf]
    · rw [isOtherPass, ready.nodes_passOf]

/-- A sentence with the tags of the reference sentence. -/
def otherWords : List Token :=
  [⟨"A", "DT"⟩, ⟨"small", "JJ"⟩, ⟨"cat", "NN"⟩, ⟨"saw", "VBD"⟩, ⟨"mice", "NNS"⟩, ⟨"in", "IN"⟩,
    ⟨"a", "DT"⟩, ⟨"barn", "NN"⟩]

theorem chunk_reworded_otherWords :
    (∀ token ∈ Reference.sentence, token.IsComplete) ∧ (∀ token ∈ otherWords, token.IsComplete) ∧
      Reference.sentence.map Token.tag = otherWords.map Token.tag ∧
      ∃ tree other, chunk ⟨Reference.ready, "S"⟩ Reference.sentence = .ok tree ∧
        chunk ⟨Reference.ready, "S"⟩ otherWords = .ok other ∧ tree.reworded otherWords = other ∧
        tree.shape = other.shape ∧ tree.height = other.height ∧
        other.written = "(S (NP A/DT small/JJ cat/NN) " ++
          "(VP saw/VBD (NP mice/NNS) (PP in/IN (NP a/DT barn/NN))))" := by
  have complete : ∀ token ∈ otherWords, token.IsComplete := by simp [otherWords, Token.IsComplete]
  have sameTags : Reference.sentence.map Token.tag = otherWords.map Token.tag := rfl
  obtain ⟨⟨tree, _, other, _, isTree, isOther, _, _, reworded, sameShape, sameHeight, _⟩, _⟩ :=
    chunk_reworded ⟨Reference.ready, "S"⟩ Reference.sentence_isComplete complete sameTags
  have isWritten : (chunk ⟨Reference.ready, "S"⟩ otherWords).map Tree.written =
      .ok ("(S (NP A/DT small/JJ cat/NN) " ++
        "(VP saw/VBD (NP mice/NNS) (PP in/IN (NP a/DT barn/NN))))") := by decide +kernel
  rw [isOther] at isWritten
  exact ⟨Reference.sentence_isComplete, complete, sameTags, tree, other, isTree, isOther, reworded,
    sameShape, sameHeight, Except.ok.inj isWritten⟩

end Chunker

end ShallowParse
