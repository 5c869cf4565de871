/-
This file proves that chunking only regroups the words of a sentence. A pass
keeps the words below its nodes in their order, and every phrase it adds has the
label of its rule and at least one child. Both facts hold of a whole run by
induction over the rules, and the only sentences without a tree are those with an
incomplete word.
-/

import ShallowParse.Chunker
import ShallowParse.Proofs.Tree.Descendants

namespace ShallowParse

/-! ### One rule -/

namespace ReadyRule

/-- Going over nodes keeps their words in order. -/
theorem leavesOfAll_scan (ready : ReadyRule) (rule : Nat) (symbols : SymbolText)
    (index offset : Nat) (nodes : List Node) :
    Node.leavesOfAll (ready.scan rule symbols index offset nodes).nodes =
      Node.leavesOfAll nodes := by
  induction index, offset, nodes using scan.induct ready symbols with
  | case1 index offset => rw [scan]; rfl
  | case2 index offset node rest consumed found phrase inductionHypothesis =>
    rw [scan, found]
    show phrase.leaves ++ Node.leavesOfAll _ = _
    rw [inductionHypothesis]
    show (node.leaves ++ Node.leavesOfAll (rest.take (consumed - 1))) ++ _ = _
    rw [List.append_assoc, Node.leavesOfAll_take_drop, Node.leavesOfAll]
  | case3 index offset node rest unmatched inductionHypothesis =>
    rw [scan, unmatched]
    show node.leaves ++ Node.leavesOfAll _ = _
    rw [inductionHypothesis, Node.leavesOfAll]

/-- A node after going over nodes was there before, or is a new phrase of the rule. -/
theorem descendants_scan (ready : ReadyRule) (rule : Nat) (symbols : SymbolText)
    (index offset : Nat) (nodes : List Node) (node : Node)
    (member : node ∈ Node.descendantsOfAll (ready.scan rule symbols index offset nodes).nodes) :
    node ∈ Node.descendantsOfAll nodes ∨
      ∃ first others, node = .phrase ready.rule.label (first :: others) := by
  induction index, offset, nodes using scan.induct ready symbols with
  | case1 index offset => rw [scan] at member; exact Or.inl member
  | case2 index offset first rest consumed found phrase inductionHypothesis =>
    rw [scan, found] at member
    change node ∈ phrase.withDescendants ++ Node.descendantsOfAll _ at member
    rw [Node.descendantsOfAll, List.mem_append, Node.mem_descendantsOfAll_iff (consumed - 1)]
    rcases List.mem_append.mp member with inPhrase | inRest
    · rcases List.mem_cons.mp inPhrase with isNew | below
      · exact Or.inr ⟨first, _, isNew⟩
      · rcases List.mem_append.mp below with inFirst | inTaken
        · exact Or.inl (Or.inl inFirst)
        · exact Or.inl (Or.inr (Or.inl inTaken))
    · rcases inductionHypothesis inRest with old | new
      · exact Or.inl (Or.inr (Or.inr old))
      · exact Or.inr new
  | case3 index offset first rest unmatched inductionHypothesis =>
    rw [scan, unmatched] at member
    change node ∈ first.withDescendants ++ Node.descendantsOfAll _ at member
    rw [Node.descendantsOfAll, List.mem_append]
    rcases List.mem_append.mp member with inFirst | inRest
    · exact Or.inl (Or.inl inFirst)
    · exact (inductionHypothesis inRest).imp_left Or.inr

end ReadyRule

/-! ### All rules -/

namespace Run

/-- What can be chained holds between the nodes before and after a run when it holds of each
pass. -/
theorem relates_ofRules (Related : List Node → List Node → Prop)
    (refl : ∀ nodes, Related nodes nodes)
    (trans : ∀ {first second third}, Related first second → Related second third →
      Related first third)
    {rules : List ReadyRule}
    (ofPass : ∀ ready ∈ rules, ∀ rule nodes, Related nodes (ready.pass rule nodes).nodes)
    (rule : Nat) (nodes : List Node) : Related nodes (ofRules rule nodes rules).nodes := by
  induction rules generalizing rule nodes with
  | nil => exact refl nodes
  | cons ready others inductionHypothesis =>
    obtain ⟨ofFirst, ofOthers⟩ := List.forall_mem_cons.mp ofPass
    rw [ofRules]
    split
    · exact refl nodes
    · exact trans (ofFirst rule nodes) (inductionHypothesis ofOthers (rule + 1) _)

/-- A run keeps the words of its nodes in order. -/
theorem leavesOfAll_ofRules (rules : List ReadyRule) (rule : Nat) (nodes : List Node) :
    Node.leavesOfAll (ofRules rule nodes rules).nodes = Node.leavesOfAll nodes :=
  relates_ofRules (fun nodes left => Node.leavesOfAll left = Node.leavesOfAll nodes)
    (fun _ => rfl) (fun first second => second.trans first)
    (fun ready _ rule nodes => ready.leavesOfAll_scan rule _ 0 0 nodes) rule nodes

/-- A node after a run was there before, or is a phrase of one of the rules. -/
theorem descendants_ofRules (rules : List ReadyRule) (rule : Nat) (nodes : List Node)
    (node : Node) (member : node ∈ Node.descendantsOfAll (ofRules rule nodes rules).nodes) :
    node ∈ Node.descendantsOfAll nodes ∨
      ∃ ready ∈ rules, ∃ first others, node = .phrase ready.rule.label (first :: others) := by
  revert member
  refine relates_ofRules (fun nodes left => node ∈ Node.descendantsOfAll left →
      node ∈ Node.descendantsOfAll nodes ∨
        ∃ ready ∈ rules, ∃ first others, node = .phrase ready.rule.label (first :: others))
    (fun _ => Or.inl) ?_ ?_ rule nodes
  · intro first second third ofFirst ofSecond member
    exact (ofSecond member).elim ofFirst Or.inr
  · intro ready isRule rule nodes member
    exact (ready.descendants_scan rule _ 0 0 nodes node member).imp_right fun new =>
      ⟨ready, isRule, new⟩

end Run

/-! ### Sentences -/

/-- A word that has both its text and its tag. -/
def Token.IsComplete (token : Token) : Prop :=
  token.text ≠ "" ∧ token.tag ≠ ""

namespace Chunker

theorem tokenFault?_eq_none_iff (token : Token) :
    tokenFault? token = none ↔ token.IsComplete := by
  unfold tokenFault? Token.IsComplete
  split
  · simp_all
  · split <;> simp_all

theorem malformed?_eq_none_iff (tokens : List Token) (index : Nat) :
    malformed? index tokens = none ↔ ∀ token ∈ tokens, token.IsComplete := by
  induction tokens generalizing index with
  | nil => simp [malformed?]
  | cons token rest inductionHypothesis =>
    rw [malformed?, List.forall_mem_cons, ← tokenFault?_eq_none_iff]
    cases tokenFault? token with
    | some fault => simp
    | none => simp only [inductionHypothesis, true_and]

/-- The fault of a sentence is that of its first incomplete word. -/
theorem malformed?_eq_some (tokens : List Token) (index : Nat) (error : MalformedInput)
    (found : malformed? index tokens = some error) :
    ∃ before token after, tokens = before ++ token :: after ∧
      error.index = index + before.length ∧ (∀ earlier ∈ before, earlier.IsComplete) ∧
      tokenFault? token = some error.fault := by
  induction tokens generalizing index with
  | nil => cases found
  | cons token rest inductionHypothesis =>
    rw [malformed?] at found
    cases fault : tokenFault? token with
    | some here =>
      simp only [fault, Option.some.injEq] at found
      subst found
      exact ⟨[], token, rest, rfl, rfl, List.forall_mem_nil _, fault⟩
    | none =>
      simp only [fault] at found
      obtain ⟨before, first, after, parted, position, complete, isFault⟩ :=
        inductionHypothesis _ found
      refine ⟨token :: before, first, after, congrArg _ parted, ?_, ?_, isFault⟩
      · rw [position, List.length_cons]
        omega
      · exact List.forall_mem_cons.mpr ⟨(tokenFault?_eq_none_iff token).mp fault, complete⟩

theorem chunk_eq (chunker : Chunker) (tokens : List Token) :
    chunker.chunk tokens =
      match malformed? 0 tokens with
      | some error => .error error
      | none => .ok ⟨chunker.rootLabel,
          (Run.ofRules 0 (tokens.map Node.leaf) chunker.grammar.ready).nodes⟩ := by
  unfold chunk run
  cases malformed? 0 tokens <;> rfl

/-- A sentence has a tree just if all its words are complete; else the error names the first word
that is not. The tree holds the words of the sentence in their order, and each of its phrases has
a child and the label of a rule. -/
theorem chunk_regroups (chunker : Chunker) (tokens : List Token) :
    ((∃ tree, chunker.chunk tokens = .ok tree) ↔ ∀ token ∈ tokens, token.IsComplete) ∧
    (∀ error, chunker.chunk tokens = .error error →
      ∃ before token after, tokens = before ++ token :: after ∧ error.index = before.length ∧
        (∀ earlier ∈ before, earlier.IsComplete) ∧ ¬token.IsComplete) ∧
    (∀ tree, chunker.chunk tokens = .ok tree →
      tree.leaves = tokens ∧
      ∀ label children, Node.phrase label children ∈ tree.nodes →
        children ≠ [] ∧ ∃ rule ∈ chunker.grammar.rules, rule.label = label) := by
  rw [chunk_eq]
  refine ⟨?_, ?_, ?_⟩
  · rw [← malformed?_eq_none_iff tokens 0]
    cases malformed? 0 tokens with
    | none => simp
    | some error => simp
  · intro error failed
    cases faulty : malformed? 0 tokens with
    | none => simp [faulty] at failed
    | some found =>
      simp only [faulty, Except.error.injEq] at failed
      subst failed
      obtain ⟨before, token, after, parted, position, complete, isFault⟩ :=
        malformed?_eq_some tokens 0 found faulty
      refine ⟨before, token, after, parted, by rw [position, Nat.zero_add], complete, ?_⟩
      rw [← tokenFault?_eq_none_iff, isFault]
      exact Option.some_ne_none _
  · intro tree built
    cases faulty : malformed? 0 tokens with
    | some found => simp [faulty] at built
    | none =>
      simp only [faulty, Except.ok.injEq] at built
      subst built
      refine ⟨?_, ?_⟩
      · show Node.leavesOfAll (Run.ofRules 0 _ _).nodes = tokens
        rw [Run.leavesOfAll_ofRules, Node.leavesOfAll_map_leaf]
      · intro label children member
        rcases Run.descendants_ofRules _ _ _ _ member with isWord | ⟨ready, isRule, _, _, new⟩
        · rw [Node.descendantsOfAll_map_leaf] at isWord
          simp at isWord
        · cases new
          exact ⟨List.cons_ne_nil _ _, ready.rule, List.mem_map_of_mem isRule, rfl⟩

end Chunker

end ShallowParse
