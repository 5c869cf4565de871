/-
This file proves that a word which no rule can use parts a sentence into two that have
nothing to do with each other. A match never takes such a word, so one that begins
before it is found in the words before it alone. After it the matcher answers what it
answers for the words after it. So each pass keeps the word, and what it makes of the
words on either side are the segments that they have alone.
-/

import ShallowParse.Proofs.Chunking.Replay
import ShallowParse.Proofs.Grammar.Requirements

namespace ShallowParse

open Segment SymbolText

/-! ### Matches -/

/-- A run without a certain symbol that begins symbols ends before that symbol. -/
theorem prefix_of_not_mem {symbol : String} {run before after : List String}
    (begins : run <+: before ++ symbol :: after) (isMissing : symbol ∉ run) : run <+: before := by
  obtain ⟨rest, parted⟩ := begins
  rcases List.append_eq_append_iff.mp parted with ⟨more, isBefore, _⟩ | ⟨more, isRun, isAfter⟩
  · exact ⟨more, isBefore.symm⟩
  · cases more with
    | nil =>
      rw [isRun, List.append_nil]
    | cons first more =>
      obtain ⟨rfl, _⟩ := List.cons.inj isAfter
      exact absurd (isRun ▸ List.mem_append_right _ List.mem_cons_self) isMissing

namespace ReadyRule

variable {ready : ReadyRule} {symbol : String}

/-- A match that begins before an ignored symbol ends before it. -/
theorem IsSound.length_le_of_ignores (sound : ready.IsSound)
    (ignores : ready.rule.pattern.Ignores symbol) {before after : List String} {length : Nat}
    (found : ready.matcher.regex.matchLength? (written (before ++ symbol :: after)) =
      some length) : length ≤ (written before).length := by
  obtain ⟨left, _, sameLength⟩ := ready.matcher.regex.exists_way_of_matchLength? _ _ found
  have isSuffix : (ofSymbols (before ++ symbol :: after)).suffix 0 =
      written (before ++ symbol :: after) := suffix_ofSymbols _ 0
  rw [← isSuffix] at found
  obtain ⟨_, run, inLanguage, _, begins, covers, _⟩ := sound.exists_run found
  rw [isSuffix] at covers
  -- The run that was matched cannot hold the symbol, so it ends before it.
  obtain ⟨more, rfl⟩ :=
    prefix_of_not_mem begins (Pattern.not_mem_of_ignores _ ignores run inLanguage)
  have isLength := congrArg List.length covers
  rw [List.length_take, Nat.min_eq_left (by omega)] at isLength
  rw [isLength, written_append, List.length_append]
  exact Nat.le_add_right _ _

/-- A match that begins before an ignored symbol is found without that symbol and those after it. -/
theorem IsSound.matchAt_before (sound : ready.IsSound)
    (ignores : ready.rule.pattern.Ignores symbol) (before after : List String) :
    ready.matcher.matchAt (.ofSymbols (before ++ symbol :: after)) 0 =
      ready.matcher.matchAt (.ofSymbols before) 0 := by
  have within : ∀ length ∈ ready.matcher.regex.matchLength? (written (before ++ symbol :: after)),
      length ≤ (written before).length := fun _ => sound.length_le_of_ignores ignores
  rw [written_append] at within
  have same := ready.matcher.regex.matchLength?_take _ _ within
  rw [List.take_left] at same
  rw [Matcher.matchAt, Matcher.matchAt, suffix_ofSymbols, suffix_ofSymbols, List.drop_zero,
    List.drop_zero, written_append, same]
  cases found : ready.matcher.regex.matchLength? (written before ++ written (symbol :: after)) with
  | none => rfl
  | some length => simp only [List.take_append_of_le_length (within length found)]

theorem IsSound.matchAt_left (sound : ready.IsSound)
    (ignores : ready.rule.pattern.Ignores symbol) {before : List String} (after : List String)
    {index : Nat} (within : index ≤ before.length) :
    ready.matcher.matchAt (.ofSymbols (before ++ symbol :: after)) index =
      ready.matcher.matchAt (.ofSymbols before) index := by
  rw [← Matcher.matchAt_drop, ← Matcher.matchAt_drop _ before,
    List.drop_append_of_le_length within, sound.matchAt_before ignores]

/-- There is no match at an ignored symbol. -/
theorem IsSound.matchAt_ignored (sound : ready.IsSound)
    (ignores : ready.rule.pattern.Ignores symbol) (before after : List String) :
    ready.matcher.matchAt (.ofSymbols (before ++ symbol :: after)) before.length = none := by
  rw [sound.matchAt_left ignores after (Nat.le_refl _), Option.eq_none_iff_forall_ne_some]
  intro consumed found
  obtain ⟨takesSome, isLeft⟩ := Matcher.consumed_bounds found
  rw [List.drop_length, List.length_nil] at isLeft
  omega

theorem matchAt_right (ready : ReadyRule) (before after : List String) (symbol : String)
    (distance : Nat) :
    ready.matcher.matchAt (.ofSymbols (before ++ symbol :: after)) (before.length + 1 + distance) =
      ready.matcher.matchAt (.ofSymbols after) distance := by
  have isRest : (before ++ symbol :: after).drop (before.length + 1 + distance) =
      after.drop distance := by
    rw [← List.drop_drop, ← List.drop_drop, List.drop_left, List.drop_succ_cons, List.drop_zero]
  rw [← Matcher.matchAt_drop, isRest, Matcher.matchAt_drop]

end ReadyRule

/-! ### One rule -/

/-- The report of the same phrase when so many words are put before the sentence. -/
def Application.shifted (words : Nat) (application : Application) : Application :=
  { application with start := application.start + words, stop := application.stop + words }

namespace ReadyRule

/-- Words before a pass only shift what it reports. -/
theorem applications_passOf_shifted (ready : ReadyRule) (rule offset words : Nat)
    (segments : List Segment) :
    (ready.passOf rule (offset + words) segments).applications =
      (ready.passOf rule offset segments).applications.map (Application.shifted words) := by
  induction segments generalizing offset with
  | nil => rfl
  | cons segment segments inductionHypothesis =>
    cases segment with
    | kept node =>
      rw [passOf, Nat.add_right_comm]
      exact inductionHypothesis _
    | built first others =>
      rw [passOf, Nat.add_right_comm]
      refine congrArg₂ List.cons ?_ (inductionHypothesis _)
      rw [application, application, Application.shifted]
      simp only [Nat.add_right_comm]

/-- The matcher answers the segments before and after an ignored node as it answers them alone. -/
theorem IsSound.answers_parted {ready : ReadyRule} (sound : ready.IsSound) {node : Node}
    (ignores : ready.rule.pattern.Ignores node.symbol) {left right : List Segment}
    (ofLeft : ready.Answers (symbolText (nodesOfAll left)) 0 left)
    (ofRight : ready.Answers (symbolText (nodesOfAll right)) 0 right) :
    ready.Answers (symbolText (nodesOfAll left ++ node :: nodesOfAll right)) 0
      (left ++ kept node :: right) := by
  rw [symbolText, List.map_append, List.map_cons, answers_append]
  refine ⟨ofLeft.elsewhere fun distance within => ?_, ?_, ofRight.elsewhere fun distance _ => ?_⟩
  · refine sound.matchAt_left ignores _ ?_
    rw [Nat.zero_add, List.length_map]
    exact Nat.le_of_lt within
  · rw [Nat.zero_add, ← List.length_map Node.symbol]
    exact sound.matchAt_ignored ignores _ _
  · rw [Nat.zero_add, Nat.zero_add, ← List.length_map Node.symbol]
    exact ready.matchAt_right _ _ _ distance

/-- A pass over nodes with an ignored one among them is a pass over those before it and one over
those after it. -/
theorem IsSound.pass_parted {ready : ReadyRule} (sound : ready.IsSound) {node : Node}
    (ignores : ready.rule.pattern.Ignores node.symbol) (rule : Nat) (before after : List Node) :
    (ready.pass rule (before ++ node :: after)).nodes =
        (ready.pass rule before).nodes ++ node :: (ready.pass rule after).nodes ∧
      (ready.pass rule (before ++ node :: after)).applications =
        (ready.pass rule before).applications ++ (ready.pass rule after).applications.map
          (Application.shifted (Node.leafCountOfAll before + node.leafCount)) := by
  obtain ⟨left, rfl, ofLeft, isLeft⟩ := ready.exists_segments rule before
  obtain ⟨right, rfl, ofRight, isRight⟩ := ready.exists_segments rule after
  have parted : nodesOfAll (left ++ kept node :: right) =
      nodesOfAll left ++ node :: nodesOfAll right := List.flatMap_append
  have isPass : ready.pass rule (nodesOfAll left ++ node :: nodesOfAll right) =
      ready.passOf rule 0 (left ++ kept node :: right) := by
    have answers := sound.answers_parted ignores ofLeft ofRight
    rw [← parted] at answers ⊢
    exact ready.scan_nodesOfAll rule _ 0 0 _ answers
  rw [isPass, isLeft, isRight]
  constructor
  · rw [nodes_passOf, nodes_passOf, nodes_passOf, List.map_append, List.map_cons]
    rfl
  · rw [applications_passOf_append, passOf, Nat.add_assoc]
    exact congrArg _ (ready.applications_passOf_shifted rule 0 _ right)

end ReadyRule

theorem ReadyRule.leafCountOfAll_pass (ready : ReadyRule) (rule : Nat) (nodes : List Node) :
    Node.leafCountOfAll (ready.pass rule nodes).nodes = Node.leafCountOfAll nodes := by
  rw [← Node.length_leavesOfAll, pass, leavesOfAll_scan, Node.length_leavesOfAll]

/-! ### All rules -/

namespace Run

/-- A run over nodes with one among them that all rules ignore is a run over those before it and one
over those after it. -/
theorem ofRules_parted {rules : List ReadyRule} (sound : ∀ ready ∈ rules, ready.IsSound)
    {node : Node} (ignores : ∀ ready ∈ rules, ready.rule.pattern.Ignores node.symbol)
    (place : Nat) (before after : List Node) :
    (ofRules place (before ++ node :: after) rules).nodes =
        (ofRules place before rules).nodes ++ node :: (ofRules place after rules).nodes ∧
      ∀ rule, (ofRules place (before ++ node :: after) rules).applications.filter (·.rule = rule) =
        (ofRules place before rules).applications.filter (·.rule = rule) ++
          ((ofRules place after rules).applications.filter (·.rule = rule)).map
            (Application.shifted (Node.leafCountOfAll before + node.leafCount)) := by
  induction rules generalizing place before after with
  | nil => exact ⟨rfl, fun _ => rfl⟩
  | cons ready others inductionHypothesis =>
    obtain ⟨isSound, othersSound⟩ := List.forall_mem_cons.mp sound
    obtain ⟨ignored, othersIgnore⟩ := List.forall_mem_cons.mp ignores
    obtain ⟨ofPass, reported⟩ := isSound.pass_parted ignored place before after
    obtain ⟨ofOthers, reportedLater⟩ := inductionHypothesis othersSound othersIgnore (place + 1)
      (ready.pass place before).nodes (ready.pass place after).nodes
    rw [nodes_cons, nodes_cons, nodes_cons, ofPass]
    refine ⟨ofOthers, fun rule => ?_⟩
    rw [filter_applications_cons, filter_applications_cons, filter_applications_cons, ofPass]
    -- The pass keeps the words before the node, so later rules shift by as many words as this one.
    split
    · exact reported
    · rw [ready.leafCountOfAll_pass] at reportedLater
      exact reportedLater rule

end Run

/-! ### Sentences -/

theorem Node.leafCountOfAll_map_leaf (tokens : List Token) :
    leafCountOfAll (tokens.map leaf) = tokens.length := by
  rw [← length_leavesOfAll, leavesOfAll_map_leaf]

namespace Chunker

/-- A word whose tag all rules ignore parts a sentence. The children of its root are those of the
words before it, the word, and those of the words after it. Each rule reports what it reports of the
words before it, and then what it reports of the words after it, shifted by the words up to them. -/
theorem chunk_parted {rules : List Rule} {grammar : Grammar}
    (accepted : Grammar.ofRules rules = .ok grammar) (rootLabel : String)
    {before after : List Token} {token : Token}
    (completeBefore : ∀ earlier ∈ before, earlier.IsComplete) (isComplete : token.IsComplete)
    (completeAfter : ∀ later ∈ after, later.IsComplete)
    (unused : ∀ rule ∈ rules, rule.pattern.Ignores token.tag) :
    ∃ tree trace left leftTrace right rightTrace,
      chunk ⟨grammar, rootLabel⟩ (before ++ [token] ++ after) = .ok tree ∧
      chunk ⟨grammar, rootLabel⟩ before = .ok left ∧
      chunk ⟨grammar, rootLabel⟩ after = .ok right ∧
      tree.children = left.children ++ [.leaf token] ++ right.children ∧
      chunkTraced ⟨grammar, rootLabel⟩ (before ++ [token] ++ after) = .ok (tree, trace) ∧
      chunkTraced ⟨grammar, rootLabel⟩ before = .ok (left, leftTrace) ∧
      chunkTraced ⟨grammar, rootLabel⟩ after = .ok (right, rightTrace) ∧
      ∀ rule, trace.filter (·.rule = rule) = leftTrace.filter (·.rule = rule) ++
        (rightTrace.filter (·.rule = rule)).map (Application.shifted (before.length + 1)) := by
  obtain ⟨rfl, sound⟩ := (Grammar.ofRules_eq_ok_iff rules grammar).mp accepted
  have ignores : ∀ ready ∈ grammar.ready, ready.rule.pattern.Ignores (Node.leaf token).symbol :=
    fun ready member => unused ready.rule (List.mem_map_of_mem member)
  have complete : ∀ any ∈ before ++ [token] ++ after, any.IsComplete :=
    List.forall_mem_append.mpr ⟨List.forall_mem_append.mpr
      ⟨completeBefore, List.forall_mem_singleton.mpr isComplete⟩, completeAfter⟩
  obtain ⟨nodes, reported⟩ :=
    Run.ofRules_parted sound ignores 0 (before.map .leaf) (after.map .leaf)
  have isRow : (before ++ [token] ++ after).map Node.leaf =
      before.map .leaf ++ .leaf token :: after.map .leaf := by
    rw [List.append_assoc, List.map_append, List.singleton_append, List.map_cons]
  rw [← isRow] at nodes reported
  rw [Node.leafCountOfAll_map_leaf] at reported
  refine ⟨_, _, _, _, _, _, chunk_eq_of_complete _ complete, chunk_eq_of_complete _ completeBefore,
    chunk_eq_of_complete _ completeAfter, ?_, chunkTraced_eq _ complete,
    chunkTraced_eq _ completeBefore, chunkTraced_eq _ completeAfter, reported⟩
  rw [nodes, List.append_assoc, List.singleton_append]

/-- A comma, which no rule of the reference grammar can use. -/
def comma : Token := ⟨",", ","⟩

/-- A clause of three words. -/
def clause : List Token :=
  [⟨"a", "DT"⟩, ⟨"bird", "NN"⟩, ⟨"sang", "VBD"⟩]

theorem chunk_parted_comma :
    Grammar.ofRules Reference.rules = .ok Reference.ready ∧
      (∀ token ∈ Reference.sentence, token.IsComplete) ∧ comma.IsComplete ∧
      (∀ token ∈ clause, token.IsComplete) ∧
      (∀ rule ∈ Reference.rules, rule.pattern.Ignores comma.tag) ∧
      ∃ tree left right,
        chunk ⟨Reference.ready, "S"⟩ (Reference.sentence ++ [comma] ++ clause) = .ok tree ∧
        chunk ⟨Reference.ready, "S"⟩ Reference.sentence = .ok left ∧
        chunk ⟨Reference.ready, "S"⟩ clause = .ok right ∧
        tree.children = left.children ++ [.leaf comma] ++ right.children := by
  have isComplete : comma.IsComplete := by simp [comma, Token.IsComplete]
  have clauseComplete : ∀ token ∈ clause, token.IsComplete := by simp [clause, Token.IsComplete]
  have unused : ∀ rule ∈ Reference.rules, rule.pattern.Ignores comma.tag := by decide
  obtain ⟨tree, _, left, _, right, _, isTree, isLeft, isRight, parted, _⟩ :=
    chunk_parted Reference.grammar_eq "S" Reference.sentence_isComplete isComplete clauseComplete
      unused
  exact ⟨Reference.grammar_eq, Reference.sentence_isComplete, isComplete, clauseComplete, unused,
    tree, left, right, isTree, isLeft, isRight, parted⟩

end Chunker

end ShallowParse
