/-
This file proves that later rules never disturb what earlier ones built. A run of all
rules is a run of the first ones, and then one of the others on what is left, so the
trace of the first rules begins the whole trace. What the others add is undone by
dissolving the phrases that are marked with their places.
-/

import ShallowParse.Proofs.Chunking.Marks

namespace ShallowParse

open MarkedNode

/-! ### Runs of some rules and then others -/

namespace Run

/-- A run reports what the first rules do, and then what the others do with what is left. -/
theorem applications_append (rule : Nat) (nodes : List Node) (first others : List ReadyRule) :
    (ofRules rule nodes (first ++ others)).applications =
      (ofRules rule nodes first).applications ++
        (ofRules (rule + first.length) (ofRules rule nodes first).nodes others).applications := by
  induction first generalizing rule nodes with
  | nil => rfl
  | cons ready first inductionHypothesis =>
    rw [List.cons_append, applications_cons, applications_cons, nodes_cons, inductionHypothesis,
      List.append_assoc, List.length_cons, Nat.add_assoc, Nat.add_comm 1]

theorem rule_lt_of_mem (rules : List ReadyRule) (rule : Nat) (nodes : List Node) :
    ∀ application ∈ (ofRules rule nodes rules).applications,
      application.rule < rule + rules.length := by
  induction rules generalizing rule nodes with
  | nil => exact List.forall_mem_nil _
  | cons ready others inductionHypothesis =>
    rw [applications_cons, List.length_cons]
    refine List.forall_mem_append.mpr ⟨fun application member => ?_, fun application member => ?_⟩
    · have isRule := ready.rule_of_mem_pass rule nodes application member
      omega
    · have ofOthers := inductionHypothesis _ _ application member
      omega

/-- What the first rules report are the reports with their places. -/
theorem applications_eq_filter (nodes : List Node) (first others : List ReadyRule) :
    (ofRules 0 nodes first).applications =
      (ofRules 0 nodes (first ++ others)).applications.filter (·.rule < first.length) := by
  have ofFirst := rule_lt_of_mem first 0 nodes
  have ofOthers := (precedes_ofRules others (0 + first.length) (ofRules 0 nodes first).nodes).2
  rw [Nat.zero_add] at ofFirst ofOthers
  rw [applications_append, Nat.zero_add, List.filter_append, List.filter_eq_self.mpr,
    List.filter_eq_nil_iff.mpr, List.append_nil]
  · intro application member
    rw [decide_eq_true_iff]
    exact Nat.not_lt_of_le (ofOthers application member)
  · exact fun application member => decide_eq_true (ofFirst application member)

/-- What one of the rules reports is what its pass reports over the nodes that the rules before it
have left. -/
theorem filter_applications {rules : List ReadyRule} {place : Nat} {ready : ReadyRule}
    (isReady : rules[place]? = some ready) (rule : Nat) (nodes : List Node) :
    (ofRules rule nodes rules).applications.filter (·.rule = rule + place) =
      (ready.pass (rule + place) (ofRules rule nodes (rules.take place)).nodes).applications := by
  induction rules generalizing place rule nodes with
  | nil => cases isReady
  | cons first others inductionHypothesis =>
    rw [filter_applications_cons]
    cases place with
    | zero =>
      obtain rfl := Option.some.inj isReady
      exact if_pos rfl
    | succ place =>
      have ofOthers := inductionHypothesis isReady (rule + 1) (first.pass rule nodes).nodes
      rw [Nat.add_assoc, Nat.add_comm 1] at ofOthers
      rw [if_neg (by omega), List.take_succ_cons, nodes_cons]
      exact ofOthers

/-! ### Marked runs -/

/-- A run from words is replayed with marks. -/
theorem exists_marked (rules : List ReadyRule) (tokens : List Token) :
    ∃ marked,
      applyAll? (tokens.map leaf) (ofRules 0 (tokens.map .leaf) rules).applications = some marked ∧
      eraseAll marked = (ofRules 0 (tokens.map .leaf) rules).nodes := by
  obtain ⟨_, replayed, _⟩ := exists_phrases rules 0 _ (Node.coverWords_map_leaf tokens) []
  rw [← eraseAll_map_leaf] at replayed ⊢
  exact exists_of_replay replayed

/-- What the other rules add to what the first ones leave is undone by dissolving, and all that the
first ones leave stays at its place. -/
theorem dissolveAll_marked (first others : List ReadyRule) (tokens : List Token)
    {marked : List MarkedNode}
    (replayed : applyAll? (tokens.map leaf)
      (ofRules 0 (tokens.map .leaf) (first ++ others)).applications = some marked) :
    eraseAll (dissolveAll first.length marked) = (ofRules 0 (tokens.map .leaf) first).nodes ∧
      Node.placedOfAll 0 (ofRules 0 (tokens.map .leaf) first).nodes ⊆
        Node.placedOfAll 0 (eraseAll marked) := by
  -- The replay of all rules goes through the row that the first ones leave, with their marks only.
  obtain ⟨middle, isMiddle, same⟩ := exists_marked first tokens
  rw [applications_append, applyAll?_append, isMiddle, Nat.zero_add] at replayed
  have ofFirst : ∀ mark ∈ marksOfAll middle, mark < first.length := by
    intro mark member
    have fromFirst := marksOfAll_of_applyAll? isMiddle member
    rw [marksOfAll_map_leaf, List.append_nil] at fromFirst
    obtain ⟨application, isReport, rfl⟩ := List.mem_map.mp fromFirst
    exact Nat.zero_add first.length ▸ rule_lt_of_mem first 0 _ application isReport
  have ofOthers :=
    (precedes_ofRules others first.length (ofRules 0 (tokens.map .leaf) first).nodes).2
  rw [dissolveAll_of_applyAll? ofOthers replayed, dissolveAll_of_marks middle ofFirst, ← same]
  exact ⟨rfl, placedOfAll_of_applyAll? replayed 0⟩

end Run

/-! ### Grammars -/

/-- The first rules of a grammar. -/
def Grammar.take (grammar : Grammar) (count : Nat) : Grammar :=
  ⟨grammar.ready.take count⟩

theorem Grammar.ofRules_take {rules : List Rule} {grammar : Grammar}
    (accepted : ofRules rules = .ok grammar) (count : Nat) :
    ofRules (rules.take count) = .ok (grammar.take count) := by
  obtain ⟨rfl, sound⟩ := (ofRules_eq_ok_iff rules grammar).mp accepted
  exact (ofRules_eq_ok_iff _ _).mpr ⟨List.map_take, fun ready member =>
    sound ready (List.mem_of_mem_take member)⟩

/-! ### Sentences -/

namespace Chunker

/-- The tree of the first rules is what is left of the whole tree when the phrases of the other
rules are dissolved, where the replay of the trace tells which rule built each phrase. All nodes of
the smaller tree stand in the whole one at their places, and its trace is the beginning of the whole
trace that holds the reports of the first rules. -/
theorem chunkTraced_firstRules {rules : List Rule} {grammar : Grammar}
    (accepted : Grammar.ofRules rules = .ok grammar) {count : Nat} (within : count ≤ rules.length)
    (rootLabel : String) {tokens : List Token} (complete : ∀ token ∈ tokens, token.IsComplete) :
    ∃ first tree trace firstTree firstTrace marked,
      Grammar.ofRules (rules.take count) = .ok first ∧
      chunkTraced ⟨grammar, rootLabel⟩ tokens = .ok (tree, trace) ∧
      chunkTraced ⟨first, rootLabel⟩ tokens = .ok (firstTree, firstTrace) ∧
      applyAll? (tokens.map .leaf) trace = some marked ∧ eraseAll marked = tree.children ∧
      firstTree = { tree with children := eraseAll (dissolveAll count marked) } ∧
      firstTree.placed ⊆ tree.placed ∧ firstTrace <+: trace ∧
      firstTrace = trace.filter (·.rule < count) := by
  have isRules := ((Grammar.ofRules_eq_ok_iff rules grammar).mp accepted).1
  have isLength : (grammar.take count).ready.length = count := by
    rw [← isRules, Grammar.rules, List.length_map] at within
    exact List.length_take_of_le within
  have isGrammar : grammar.ready = (grammar.take count).ready ++ grammar.ready.drop count :=
    (List.take_append_drop count grammar.ready).symm
  obtain ⟨marked, replayed, same⟩ := Run.exists_marked grammar.ready tokens
  have reports := Run.applications_append 0 (tokens.map .leaf) (grammar.take count).ready
    (grammar.ready.drop count)
  have filtered := Run.applications_eq_filter (tokens.map .leaf) (grammar.take count).ready
    (grammar.ready.drop count)
  obtain ⟨dissolved, placed⟩ := Run.dissolveAll_marked (grammar.take count).ready
    (grammar.ready.drop count) tokens (isGrammar ▸ replayed)
  rw [← isGrammar] at reports filtered
  rw [isLength] at filtered dissolved
  refine ⟨grammar.take count, _, _, _, _, marked, Grammar.ofRules_take accepted count,
    chunkTraced_eq _ complete, chunkTraced_eq _ complete, replayed, same, ?_, ?_, ?_, filtered⟩
  · rw [dissolved]
  · rw [same] at placed
    exact placed
  · exact reports ▸ List.prefix_append _ _

/-- Without verb phrases and prepositional phrases the noun phrases of the sentence are left. -/
theorem chunkTraced_firstRules_nounPhrases :
    Grammar.ofRules Reference.rules = .ok Reference.ready ∧ 1 ≤ Reference.rules.length ∧
      (∀ token ∈ Reference.sentence, token.IsComplete) ∧
      ∃ tree trace marked,
        chunkTraced ⟨Reference.ready, "S"⟩ Reference.sentence = .ok (tree, trace) ∧
        applyAll? (Reference.sentence.map .leaf) trace = some marked ∧
        eraseAll marked = tree.children ∧
        Tree.written { tree with children := eraseAll (dissolveAll 1 marked) } =
          "(S (NP The/DT little/JJ dog/NN) chased/VBD (NP cats/NNS) " ++
            "on/IN (NP the/DT mat/NN))" := by
  have someRule : 1 ≤ Reference.rules.length := by decide
  obtain ⟨first, tree, trace, firstTree, firstTrace, marked, isFirst, isTree, isFirstTree, replayed,
    same, dissolved, _⟩ :=
    chunkTraced_firstRules Reference.grammar_eq someRule "S" Reference.sentence_isComplete
  obtain rfl : Reference.ready.take 1 = first :=
    Except.ok.inj ((Grammar.ofRules_take Reference.grammar_eq 1).symm.trans isFirst)
  have isWritten : (chunkTraced ⟨Reference.ready.take 1, "S"⟩ Reference.sentence).map
      (·.1.written) = .ok ("(S (NP The/DT little/JJ dog/NN) chased/VBD (NP cats/NNS) " ++
        "on/IN (NP the/DT mat/NN))") := by decide +kernel
  rw [isFirstTree] at isWritten
  exact ⟨Reference.grammar_eq, someRule, Reference.sentence_isComplete, tree, trace, marked, isTree,
    replayed, same, dissolved ▸ Except.ok.inj isWritten⟩

end Chunker

end ShallowParse
