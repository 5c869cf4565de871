/-
This file proves that chunking is a plain rewriting of nodes. There a rule matches
the symbols of the nodes that are left, written anew each time: a match becomes a
phrase and what comes after it is left, and without a match the first node stays and
the others are left. A pass writes the symbols only once, but it leaves the same
nodes, because what a matcher answers does not depend on the symbols before.
-/

import ShallowParse.Proofs.Chunking.Segments
import ShallowParse.Proofs.Grammar.Acceptance

namespace ShallowParse

open Segment

/-! ### One rule -/

namespace ReadyRule

/-- The nodes that a rule leaves of some nodes when it matches them from the first one on. -/
def rewrite (ready : ReadyRule) : List Node → List Node
  | [] => []
  | node :: rest =>
    match _found : ready.matcher.matchAt (symbolText (node :: rest)) 0 with
    | some consumed =>
      .phrase ready.rule.label ((node :: rest).take consumed) ::
        ready.rewrite ((node :: rest).drop consumed)
    | none => node :: ready.rewrite rest
termination_by nodes => nodes.length
decreasing_by
  · have taken := (Matcher.consumed_bounds _found).1
    rw [List.length_drop, List.length_cons]
    omega
  · exact Nat.lt_succ_self _

theorem rewrite_nil (ready : ReadyRule) : ready.rewrite [] = [] := by
  rw [rewrite]

/-- What the matcher answers at a place of a stream, it answers for the nodes from there on. -/
theorem matchAt_symbolText (ready : ReadyRule) {stream nodes : List Node} {index : Nat}
    (isRest : stream.drop index = nodes) :
    ready.matcher.matchAt (symbolText nodes) 0 = ready.matcher.matchAt (symbolText stream) index := by
  rw [symbolText, symbolText, ← isRest, List.map_drop, Matcher.matchAt_drop]

/-- Segments that the matcher answers are rewritten one by one. -/
theorem rewrite_nodesOfAll (ready : ReadyRule) (stream : List Node) (segments : List Segment)
    (index : Nat) (isRest : stream.drop index = nodesOfAll segments)
    (answers : ready.Answers (symbolText stream) index segments) :
    ready.rewrite (nodesOfAll segments) = segments.map (result ready.rule.label) := by
  induction segments generalizing index with
  | nil => exact ready.rewrite_nil
  | cons segment segments inductionHypothesis =>
    obtain ⟨here, later⟩ := answers
    have isLeft : stream.drop (index + segment.nodes.length) = nodesOfAll segments := by
      rw [← List.drop_drop, isRest, nodesOfAll_cons, List.drop_left]
    have rewritten := inductionHypothesis _ isLeft later
    rw [← ready.matchAt_symbolText isRest] at here
    cases segment with
    | kept node =>
      rw [nodesOfAll_cons, Segment.nodes, List.singleton_append] at here ⊢
      rw [rewrite]
      split
      · rename_i consumed found
        cases here.symm.trans found
      · rw [rewritten]
        rfl
    | built first others =>
      rw [nodesOfAll_cons, Segment.nodes, List.cons_append] at here ⊢
      rw [rewrite]
      split
      · rename_i consumed found
        obtain rfl : others.length + 1 = consumed := Option.some.inj (here.symm.trans found)
        rw [List.take_succ_cons, List.take_left, List.drop_succ_cons, List.drop_left, rewritten]
        rfl
      · rename_i unmatched
        cases here.symm.trans unmatched

/-- A pass leaves the rewritten nodes. -/
theorem nodes_pass (ready : ReadyRule) (rule : Nat) (nodes : List Node) :
    (ready.pass rule nodes).nodes = ready.rewrite nodes := by
  obtain ⟨segments, rfl, answers, isPass⟩ := ready.exists_segments rule nodes
  rw [isPass, nodes_passOf, ready.rewrite_nodesOfAll _ segments 0 rfl answers]

/-! ### All rules -/

/-- The nodes that rules leave of some nodes, one rule after the other. -/
def rewriteAll (rules : List ReadyRule) (nodes : List Node) : List Node :=
  rules.foldl (fun nodes ready => ready.rewrite nodes) nodes

end ReadyRule

open ReadyRule

/-- A run leaves the nodes that all rules have rewritten. -/
theorem Run.nodes_ofRules (rules : List ReadyRule) (rule : Nat) (nodes : List Node) :
    (ofRules rule nodes rules).nodes = rewriteAll rules nodes := by
  induction rules generalizing rule nodes with
  | nil => rfl
  | cons ready others inductionHypothesis =>
    rw [nodes_cons, inductionHypothesis, nodes_pass]
    rfl

/-! ### Sentences -/

namespace Chunker

/-- The children of the root are the words rewritten by all rules. Each rule parts the nodes that
the rules before it leave into segments. At each node that stays it has no match there, and at the
first node of each new phrase its match takes the children of the phrase. -/
theorem chunk_eq_rewritten (chunker : Chunker) {tokens : List Token}
    (complete : ∀ token ∈ tokens, token.IsComplete) :
    chunker.chunk tokens =
        .ok ⟨chunker.rootLabel, rewriteAll chunker.grammar.ready (tokens.map .leaf)⟩ ∧
      ∀ before ready after nodes, chunker.grammar.ready = before ++ ready :: after →
        nodes = rewriteAll before (tokens.map .leaf) →
        ∃ segments, nodesOfAll segments = nodes ∧
          ready.rewrite nodes = segments.map (result ready.rule.label) ∧
          ready.Answers (symbolText nodes) 0 segments := by
  constructor
  · rw [chunk_eq, (malformed?_eq_none_iff tokens 0).mpr complete]
    simp only [Run.nodes_ofRules]
  · intro before ready after nodes _ _
    obtain ⟨segments, rfl, answers, _⟩ := ready.exists_segments 0 nodes
    exact ⟨segments, rfl, ready.rewrite_nodesOfAll _ segments 0 rfl answers, answers⟩

theorem chunk_eq_rewritten_sentence :
    (∀ token ∈ Reference.sentence, token.IsComplete) ∧
      chunk ⟨Reference.ready, "S"⟩ Reference.sentence =
        .ok ⟨"S", rewriteAll Reference.ready.ready (Reference.sentence.map .leaf)⟩ :=
  ⟨Reference.sentence_isComplete,
    (chunk_eq_rewritten ⟨Reference.ready, "S"⟩ Reference.sentence_isComplete).1⟩

end Chunker

end ShallowParse
