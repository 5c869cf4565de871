/-
This file proves that every phrase of a tree is justified by the rule that built it.
The rule was matched in the middle of a sentence, but a match neither looks back nor
ahead. So the rule matches the children of the phrase alone, and takes all of them.
What is built later may stand around a phrase, but leaves it as it is.
-/

import ShallowParse.Proofs.Chunking.Replay
import ShallowParse.Proofs.Pattern.Matching
import ShallowParse.Proofs.Pattern.Shortest

namespace ShallowParse

/-! ### Single phrases -/

/-- The symbols of a match are as many as the pattern takes at least. -/
theorem Pattern.minLength_le_of_matchAt {pattern : Pattern} {matcher : Matcher}
    (faultless : pattern.fault? = none) (ready : Matcher.ofPattern pattern = .ok matcher)
    {symbols : List String} {consumed : Nat}
    (found : matcher.matchAt (.ofSymbols symbols) 0 = some consumed) :
    ∃ least, pattern.minLength = some least ∧ least ≤ consumed := by
  obtain ⟨length, isLength, rfl, _⟩ := (Matcher.matchAt_eq_some_iff _ _ _).mp found
  rw [regex_of_ready ready] at isLength
  obtain ⟨taken, rest, rfl, isWay, covers⟩ := exists_way_of_match faultless isLength
  obtain ⟨least, isShortest, takes⟩ := (takeAtLeast_shortest pattern).le isWay
  refine ⟨min least lengthLimit, by rw [minLength_eq, isShortest]; rfl, ?_⟩
  rw [covers, SymbolText.count_written]
  rw [List.length_append] at takes
  omega

/-- Whether an application justifies a phrase: the phrase has the label of the rule, and the pattern
of the rule takes all of its children when they stand alone, which are as many as it must take. -/
def Application.Justifies (rules : List Rule) (application : Application) (phrase : Node) : Prop :=
  ∃ rule children matcher least, rules[application.rule]? = some rule ∧
    phrase = .phrase rule.label children ∧ application.label = rule.label ∧
    Matcher.ofPattern rule.pattern = .ok matcher ∧
    matcher.matchAt (.ofSymbols (children.map Node.symbol)) 0 = some children.length ∧
    rule.pattern.minLength = some least ∧ least ≤ children.length

/-- What a rule of a grammar builds is justified. -/
theorem Run.Reports.justifies {grammar : Grammar} (sound : ∀ ready ∈ grammar.ready, ready.IsSound)
    {tokens : List Token} {application : Application} {phrase : Node}
    (reports : Reports grammar.ready 0 tokens application phrase) :
    application.Justifies grammar.rules phrase := by
  obtain ⟨place, ready, _, isReady, isPlace, _, _, before, children, after, rfl, _, found, rfl,
    isApplication⟩ := reports
  have isSound := sound ready (List.mem_of_getElem? isReady)
  have alone := Matcher.matchAt_take found
  rw [← List.map_drop, List.append_assoc, List.drop_left, ← List.map_take, List.take_left] at alone
  obtain ⟨least, isLeast, enough⟩ :=
    ready.rule.pattern.minLength_le_of_matchAt isSound.faultless isSound.ready alone
  refine ⟨ready.rule, children, ready.matcher, least, ?_, rfl, by rw [isApplication]; rfl,
    isSound.ready, alone, isLeast, enough⟩
  rw [isPlace, Nat.zero_add, Grammar.rules, List.getElem?_map, isReady]
  rfl

/-! ### Sentences -/

namespace Chunker

/-- The phrases that the replay of a trace builds are all phrases of the tree, and each of them is
justified by its report. -/
theorem chunkTraced_justifies {rules : List Rule} {grammar : Grammar}
    (accepted : Grammar.ofRules rules = .ok grammar) (rootLabel : String) {tokens : List Token}
    (complete : ∀ token ∈ tokens, token.IsComplete) :
    ∃ tree trace replay, chunkTraced ⟨grammar, rootLabel⟩ tokens = .ok (tree, trace) ∧
      (Replay.start tokens).applyAll? trace = some replay ∧ replay.nodes = tree.children ∧
      replay.phrases.Perm tree.phrases ∧
      List.Forall₂ (Application.Justifies rules) trace replay.phrases := by
  obtain ⟨rfl, sound⟩ := (Grammar.ofRules_eq_ok_iff rules grammar).mp accepted
  obtain ⟨phrases, replayed, reported, all⟩ :=
    Run.exists_phrases grammar.ready 0 _ (Node.coverWords_map_leaf tokens) []
  rw [Node.phrasesOfAll_map_leaf, List.append_nil] at all
  refine ⟨⟨rootLabel, _⟩, _, _, ?_, replayed, rfl, all.symm,
    reported.imp fun _ _ reports => reports.justifies sound⟩
  rw [chunkTraced, run_eq _ complete]
  rfl

theorem chunkTraced_justifies_sentence :
    Grammar.ofRules Reference.rules = .ok Reference.ready ∧
      (∀ token ∈ Reference.sentence, token.IsComplete) ∧
      ∃ tree trace replay, chunkTraced ⟨Reference.ready, "S"⟩ Reference.sentence =
          .ok (tree, trace) ∧
        (Replay.start Reference.sentence).applyAll? trace = some replay ∧
        replay.nodes = tree.children ∧ replay.phrases.Perm tree.phrases ∧
        List.Forall₂ (Application.Justifies Reference.rules) trace replay.phrases :=
  ⟨Reference.grammar_eq, Reference.sentence_isComplete,
    chunkTraced_justifies Reference.grammar_eq "S" Reference.sentence_isComplete⟩

end Chunker

end ShallowParse
