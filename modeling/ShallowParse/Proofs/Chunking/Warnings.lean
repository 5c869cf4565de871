/-
This file proves what a warning means for sentences. The phrases that a rule finds are
those of earlier rules, so a label of which the grammar warns is the label of no phrase
among the nodes of the pass, at whatever depth. A test for that label takes a word with
the label as its tag or nothing. Where no word has that tag, no child of a phrase of the
rule has that symbol.
-/

import ShallowParse.Proofs.Chunking.FirstRules
import ShallowParse.Proofs.Chunking.Nesting
import ShallowParse.Proofs.Grammar.Warnings

namespace ShallowParse

/-! ### Tests for one symbol -/

/-- What the matcher of a test for a symbol finds is just that symbol. -/
theorem Pattern.symbol_of_matchAt_exactly {symbol : String} (notEmpty : symbol ≠ "")
    {symbols : List String} {place consumed : Nat}
    (found : Matcher.matchAt ⟨(exactly symbol).regex⟩ (.ofSymbols symbols) place =
      some consumed) : consumed = 1 ∧ symbols[place]? = some symbol := by
  rw [← Matcher.matchAt_drop] at found
  obtain ⟨length, isLength, rfl, _⟩ := (Matcher.matchAt_eq_some_iff _ _ _).mp found
  have faultless : (exactly symbol).fault? = none :=
    if_neg fun isEmpty => notEmpty (String.isEmpty_iff.mp isEmpty)
  obtain ⟨taken, rest, parted, isWay, covers⟩ := exists_way_of_match faultless isLength
  rw [ways] at isWay
  obtain ⟨first, isSymbol, isFirst⟩ := Ways.exists_of_mem_single isWay
  obtain rfl := of_decide_eq_true isSymbol
  have isTaken : taken = [first] := List.append_cancel_right (parted.symm.trans isFirst)
  rw [covers, SymbolText.count_written, isTaken, ← List.head?_drop, isFirst]
  exact ⟨rfl, rfl⟩

open MarkedNode

/-! ### Labels of reports -/

namespace Run

/-- Each report has the label of its rule. -/
theorem label_of_mem (rules : List ReadyRule) (tokens : List Token) :
    ∀ application ∈ (ofRules 0 (tokens.map .leaf) rules).applications,
      ∃ ready, rules[application.rule]? = some ready ∧ application.label = ready.rule.label := by
  obtain ⟨phrases, _, reported, _⟩ :=
    exists_phrases rules 0 _ (Node.coverWords_map_leaf tokens) []
  have isLabelled {application : Application} {phrase : Node}
      (reports : Reports rules 0 (Node.leavesOfAll (tokens.map .leaf)) application phrase) :
      ∃ ready, rules[application.rule]? = some ready ∧ application.label = ready.rule.label := by
    obtain ⟨place, ready, _, isReady, isPlace, _, _, _, _, _, _, _, _, _, isApplication⟩ := reports
    rw [Nat.zero_add] at isPlace
    exact ⟨ready, isPlace ▸ isReady, by rw [isApplication]; rfl⟩
  exact ((List.forall₂_and_left _ phrases).mp
    (reported.imp fun _ _ reports => ⟨isLabelled reports, reports⟩)).1

end Run

/-! ### Labels without a phrase -/

/-- The nodes over which the rule at a place of a grammar makes its pass. -/
def Grammar.nodesBefore (grammar : Grammar) (index : Nat) (tokens : List Token) : List Node :=
  (Run.ofRules 0 (tokens.map .leaf) (grammar.take index).ready).nodes

theorem Grammar.labels_take (grammar : Grammar) (index : Nat) :
    (grammar.rules.take index).map Rule.label =
      (grammar.take index).ready.map (·.rule.label) := by
  rw [Grammar.rules, Grammar.take, ← List.map_take, List.map_map]
  rfl

section

variable {grammar : Grammar} {index : Nat} {symbol : String} {tokens : List Token}

/-- A phrase that a rule finds has the label of an earlier rule. -/
theorem Grammar.label_ne_of_mem_nodesBefore
    (unproduced : symbol ∉ (grammar.rules.take index).map Rule.label)
    {label : String} {children : List Node}
    (member : .phrase label children ∈ Node.descendantsOfAll (grammar.nodesBefore index tokens)) :
    label ≠ symbol := by
  rw [labels_take] at unproduced
  rcases Run.descendants_ofRules _ _ _ _ member with isWord | ⟨ready, isEarlier, _, _, same⟩
  · rw [Node.descendantsOfAll_map_leaf] at isWord
    obtain ⟨_, _, same⟩ := List.mem_map.mp isWord
    cases same
  · obtain ⟨rfl, _⟩ := Node.phrase.inj same
    rintro rfl
    exact unproduced (List.mem_map_of_mem isEarlier)

/-- A test for a label that no earlier rule has takes one word, which has the label as its tag. -/
theorem Grammar.word_of_matchAt_exactly
    (unproduced : symbol ∉ (grammar.rules.take index).map Rule.label) (notEmpty : symbol ≠ "")
    {place consumed : Nat}
    (found : Matcher.matchAt ⟨(Pattern.exactly symbol).regex⟩
      (ReadyRule.symbolText (grammar.nodesBefore index tokens)) place = some consumed) :
    consumed = 1 ∧ ∃ token ∈ tokens, token.tag = symbol ∧
      (grammar.nodesBefore index tokens)[place]? = some (.leaf token) := by
  obtain ⟨takesOne, isSymbol⟩ := Pattern.symbol_of_matchAt_exactly notEmpty found
  rw [List.getElem?_map] at isSymbol
  obtain ⟨node, isNode, sameSymbol⟩ := Option.map_eq_some_iff.mp isSymbol
  have member := Node.mem_descendantsOfAll (List.mem_of_getElem? isNode)
  cases node with
  | phrase label children =>
    exact absurd sameSymbol (label_ne_of_mem_nodesBefore unproduced member)
  | leaf token =>
    refine ⟨takesOne, token, ?_, sameSymbol, isNode⟩
    rcases Run.descendants_ofRules _ _ _ _ member with isWord | ⟨_, _, _, _, same⟩
    · rw [Node.descendantsOfAll_map_leaf] at isWord
      obtain ⟨_, isToken, same⟩ := List.mem_map.mp isWord
      exact Node.leaf.inj same ▸ isToken
    · cases same

/-- The children of a phrase are words and phrases of earlier rules, so none of them has the symbol
that no earlier rule has as its label and no word as its tag. -/
theorem Grammar.symbol_ne_of_mem_children
    (unproduced : symbol ∉ (grammar.rules.take index).map Rule.label)
    (untagged : ∀ token ∈ tokens, token.tag ≠ symbol) {marked : List MarkedNode} {bound : Nat}
    (replayed : applyAll? (tokens.map leaf)
      (Run.ofRules 0 (tokens.map .leaf) grammar.ready).applications = some marked)
    (descend : AllDescend bound marked) {label : String} {children : List MarkedNode}
    (member : phrase index label children ∈ descendantsOfAll marked) :
    ∀ child ∈ children, child.erase.symbol ≠ symbol := by
  intro child isChild
  have descends : child.Descends index := by
    obtain ⟨_, below⟩ := descends_of_mem_row marked descend _ member
    exact descends_of_mem_row children below child (mem_descendantsOfAll isChild)
  rcases mem_of_applyAll? replayed (child_mem_descendantsOfAll isChild marked member) with
    isWord | ⟨application, isReport, inner, rfl⟩
  · rw [descendantsOfAll_map_leaf] at isWord
    obtain ⟨token, isToken, rfl⟩ := List.mem_map.mp isWord
    exact untagged token isToken
  · obtain ⟨ready, isReady, sameLabel⟩ := Run.label_of_mem _ _ application isReport
    have isEarlier : ready ∈ (grammar.take index).ready :=
      List.mem_of_getElem? ((List.getElem?_take_of_lt descends.1).trans isReady)
    rw [labels_take] at unproduced
    show application.label ≠ symbol
    rw [sameLabel]
    rintro rfl
    exact unproduced (List.mem_map_of_mem isEarlier)

end

/-! ### Sentences -/

namespace Chunker

/-- A grammar warns of just those labels that a rule names in full and no rule before it has, each
once and in order. Where it warns, the rule finds no phrase with that label in any sentence, its test
for the label takes a word with that tag or nothing, and if there is no such word, none of its phrases
has a child with that symbol. -/
theorem warnings_are_exact {rules : List Rule} {grammar : Grammar}
    (accepted : Grammar.ofRules rules = .ok grammar) (rootLabel : String) :
    (∀ warning, warning ∈ grammar.warnings ↔ warning.IsDue rules) ∧
    grammar.warnings.Pairwise GrammarWarning.Precedes ∧
    ∀ warning ∈ grammar.warnings, ∀ tokens : List Token, (∀ token ∈ tokens, token.IsComplete) →
      ∃ ready tree trace marked, grammar.ready[warning.index]? = some ready ∧
        chunkTraced ⟨grammar, rootLabel⟩ tokens = .ok (tree, trace) ∧
        applyAll? (tokens.map .leaf) trace = some marked ∧ eraseAll marked = tree.children ∧
        trace.filter (·.rule = warning.index) =
          (ready.pass warning.index (grammar.nodesBefore warning.index tokens)).applications ∧
        (∀ label children,
          .phrase label children ∈
            Node.descendantsOfAll (grammar.nodesBefore warning.index tokens) →
          label ≠ warning.symbol) ∧
        (∀ place consumed,
          Matcher.matchAt ⟨(Pattern.exactly warning.symbol).regex⟩
            (ReadyRule.symbolText (grammar.nodesBefore warning.index tokens)) place =
              some consumed →
          consumed = 1 ∧ ∃ token ∈ tokens, token.tag = warning.symbol ∧
            (grammar.nodesBefore warning.index tokens)[place]? = some (.leaf token)) ∧
        ((∀ token ∈ tokens, token.tag ≠ warning.symbol) →
          ∀ label children, .phrase warning.index label children ∈ descendantsOfAll marked →
          ∀ child ∈ children, child.erase.symbol ≠ warning.symbol) := by
  obtain ⟨rfl, sound⟩ := (Grammar.ofRules_eq_ok_iff rules grammar).mp accepted
  refine ⟨grammar.mem_warnings_iff, Grammar.pairwise_warningsFrom _ _ _ _, ?_⟩
  intro warning isWarning tokens complete
  obtain ⟨_, isRule, _, isNamed, _, unproduced⟩ := (grammar.mem_warnings_iff warning).mp isWarning
  rw [Grammar.rules, List.getElem?_map] at isRule
  obtain ⟨ready, isReady, rfl⟩ := Option.map_eq_some_iff.mp isRule
  have notEmpty : warning.symbol ≠ "" := by
    have faultless := (sound ready (List.mem_of_getElem? isReady)).faultless
    exact (Pattern.fault?_eq_none_iff _).mp faultless _ isNamed
  obtain ⟨marked, replayed, isMarked, descend⟩ :=
    Run.exists_descending_of_words grammar.ready tokens
  have reported := Run.filter_applications isReady 0 (tokens.map .leaf)
  rw [Nat.zero_add] at reported
  refine ⟨ready, _, _, marked, isReady, chunkTraced_eq _ complete, replayed, isMarked, reported,
    ?_, ?_, ?_⟩
  · exact fun _ _ => Grammar.label_ne_of_mem_nodesBefore unproduced
  · exact fun _ _ => Grammar.word_of_matchAt_exactly unproduced notEmpty
  · exact fun untagged _ _ =>
      Grammar.symbol_ne_of_mem_children unproduced untagged replayed descend

/-- Prepositional phrases before the noun phrases that they are to take. -/
def earlyPhrases : List Rule :=
  [⟨"PP", .sequence [.exactly "IN", .alternation [.exactly "NP", .startingWith "NN"]]⟩,
    ⟨"NP", .sequence [.optional (.exactly "DT"), .oneOrMore (.startingWith "NN")]⟩]

/-- A sentence with a noun phrase after a preposition, and with a noun after one. -/
def awaySentence : List Token :=
  [⟨"in", "IN"⟩, ⟨"the", "DT"⟩, ⟨"house", "NN"⟩, ⟨"on", "IN"⟩, ⟨"time", "NN"⟩]

/-- The prepositional phrase that is built has a noun as its child and no noun phrase. -/
theorem warnings_are_exact_earlyPhrases :
    Grammar.ofRules earlyPhrases = .ok ⟨earlyPhrases.map Rule.madeReady⟩ ∧
      Grammar.warnings ⟨earlyPhrases.map Rule.madeReady⟩ = [⟨0, "PP", "NP"⟩] ∧
      (∀ token ∈ awaySentence, token.IsComplete) ∧ (∀ token ∈ awaySentence, token.tag ≠ "NP") ∧
      ∃ tree trace marked,
        chunkTraced ⟨⟨earlyPhrases.map Rule.madeReady⟩, "S"⟩ awaySentence = .ok (tree, trace) ∧
        tree.shape = "S[IN NP[DT NN] PP[IN NN]]" ∧ eraseAll marked = tree.children ∧
        ∀ label children, .phrase 0 label children ∈ descendantsOfAll marked →
          ∀ child ∈ children, child.erase.symbol ≠ "NP" := by
  have accepted : Grammar.ofRules earlyPhrases = .ok ⟨earlyPhrases.map Rule.madeReady⟩ := rfl
  have isWarning : Grammar.warnings ⟨earlyPhrases.map Rule.madeReady⟩ = [⟨0, "PP", "NP"⟩] := by
    decide +kernel
  have complete : ∀ token ∈ awaySentence, token.IsComplete := by
    simp [awaySentence, Token.IsComplete]
  have untagged : ∀ token ∈ awaySentence, token.tag ≠ "NP" := by decide
  have isShape : (chunkTraced ⟨⟨earlyPhrases.map Rule.madeReady⟩, "S"⟩ awaySentence).map
      (·.1.shape) = .ok "S[IN NP[DT NN] PP[IN NN]]" := by decide +kernel
  obtain ⟨_, tree, trace, marked, _, isTree, _, isMarked, _, _, _, withoutLabel⟩ :=
    (warnings_are_exact accepted "S").2.2 ⟨0, "PP", "NP"⟩
      (isWarning ▸ List.mem_singleton_self _) awaySentence complete
  rw [isTree] at isShape
  exact ⟨accepted, isWarning, complete, untagged, tree, trace, marked, isTree,
    Except.ok.inj isShape, isMarked, withoutLabel untagged⟩

end Chunker

end ShallowParse
