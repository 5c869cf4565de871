/-
This file proves that what becomes of a sentence depends on a grammar only through the
labels of its rules and the answers of its matchers.
-/

import Mathlib.Data.List.Forall2
import ShallowParse.Chunker

namespace ShallowParse

/-- Whether two rules have the same label and match alike. -/
structure ReadyRule.Alike (first second : ReadyRule) : Prop where
  label : second.rule.label = first.rule.label
  matchAt : ∀ symbols index, second.matcher.matchAt (.ofSymbols symbols) index =
    first.matcher.matchAt (.ofSymbols symbols) index

namespace ReadyRule

theorem Alike.application {first second : ReadyRule} (alike : Alike first second)
    (rule offset : Nat) (phrase : Node) :
    second.application rule offset phrase = first.application rule offset phrase := by
  rw [ReadyRule.application, ReadyRule.application, alike.label]

theorem Alike.scan {first second : ReadyRule} (alike : Alike first second) (rule : Nat)
    (symbols : List String) (index offset : Nat) (nodes : List Node) :
    second.scan rule (.ofSymbols symbols) index offset nodes =
      first.scan rule (.ofSymbols symbols) index offset nodes := by
  induction index, offset, nodes using scan.induct first (.ofSymbols symbols) with
  | case1 index offset => rw [ReadyRule.scan, ReadyRule.scan]
  | case2 index offset node rest consumed found phrase inductionHypothesis =>
    rw [ReadyRule.scan, ReadyRule.scan, alike.matchAt, found, alike.label]
    show Pass.build (second.application rule offset phrase) phrase _ =
      Pass.build (first.application rule offset phrase) phrase _
    rw [alike.application, inductionHypothesis]
  | case3 index offset node rest unmatched inductionHypothesis =>
    rw [ReadyRule.scan, ReadyRule.scan, alike.matchAt, unmatched]
    exact congrArg (Pass.keep node) inductionHypothesis

theorem Alike.pass {first second : ReadyRule} (alike : Alike first second) (rule : Nat)
    (nodes : List Node) : second.pass rule nodes = first.pass rule nodes :=
  alike.scan rule (nodes.map Node.symbol) 0 0 nodes

end ReadyRule

theorem Run.ofRules_alike {rules others : List ReadyRule}
    (alike : List.Forall₂ ReadyRule.Alike rules others) (rule : Nat) (nodes : List Node) :
    ofRules rule nodes others = ofRules rule nodes rules := by
  induction alike generalizing rule nodes with
  | nil => rfl
  | cons first _ inductionHypothesis =>
    rw [ofRules, ofRules, passRecord, passRecord, first.label, first.pass]
    simp only [inductionHypothesis]

/-- Grammars whose rules are alike make the same of every sentence. -/
theorem Chunker.run_alike {grammar other : Grammar}
    (alike : List.Forall₂ ReadyRule.Alike grammar.ready other.ready) (rootLabel : String)
    (tokens : List Token) : run ⟨other, rootLabel⟩ tokens = run ⟨grammar, rootLabel⟩ tokens := by
  rw [run, run, Run.ofRules_alike alike]

end ShallowParse
