/-
This file says which rules make a grammar. The grammar holds the rules that it was
given, in their order, and every one of them has a label, a pattern without a fault
that cannot match the empty run, and the matcher of that pattern. Nothing else is
asked of them.
-/

import ShallowParse.Proofs.Chunking.Regrouping
import ShallowParse.Proofs.Outcome
import ShallowParse.Proofs.Pattern.Matching

namespace ShallowParse

/-- A rule with the expression for its pattern. -/
def Rule.madeReady (rule : Rule) : ReadyRule :=
  ⟨rule, ⟨rule.pattern.regex⟩⟩

/-- What a grammar asks of a rule that was made ready. -/
structure ReadyRule.IsSound (ready : ReadyRule) : Prop where
  labelled : Text.isBlankText ready.rule.label = false
  faultless : ready.rule.pattern.fault? = none
  notNullable : ready.rule.pattern.isNullable = false
  ready : Matcher.ofPattern ready.rule.pattern = .ok ready.matcher

/-- Nothing but its rule makes a sound rule what it is. -/
theorem ReadyRule.IsSound.eq_madeReady {ready : ReadyRule} (sound : ready.IsSound) :
    ready = ready.rule.madeReady := by
  rw [Rule.madeReady, ← Pattern.regex_of_ready sound.ready]

namespace Grammar

theorem ruleFault?_eq_none_iff (rule : Rule) :
    ruleFault? rule = none ↔ Text.isBlankText rule.label = false ∧ rule.pattern.fault? = none ∧
      rule.pattern.isNullable = false := by
  rw [ruleFault?]
  cases Text.isBlankText rule.label with
  | true => simp
  | false =>
    cases rule.pattern.fault? with
    | some fault => simp
    | none => simp

theorem readyRule_eq_ok_iff (index : Nat) (rule : Rule) (ready : ReadyRule) :
    readyRule index rule = .ok ready ↔ ready.rule = rule ∧ ready.IsSound := by
  have faults := ruleFault?_eq_none_iff rule
  rw [readyRule]
  constructor
  · intro isReady
    split at isReady
    · cases isReady
    · rename_i faultless
      split at isReady
      · rename_i matcher made
        obtain ⟨labelled, faultless, notNullable⟩ := faults.mp faultless
        cases isReady
        exact ⟨rfl, labelled, faultless, notNullable, made⟩
      · cases isReady
  · rintro ⟨rfl, labelled, faultless, notNullable, made⟩
    rw [faults.mpr ⟨labelled, faultless, notNullable⟩, made]

theorem readyRules_eq_ok_iff (index : Nat) (rules : List Rule) (all : List ReadyRule) :
    readyRules index rules = .ok all ↔
      all.map ReadyRule.rule = rules ∧ ∀ ready ∈ all, ready.IsSound := by
  induction rules generalizing index all with
  | nil =>
    rw [readyRules, Except.ok.injEq, List.map_eq_nil_iff]
    constructor
    · rintro rfl
      exact ⟨rfl, List.forall_mem_nil _⟩
    · exact fun isNil => isNil.1.symm
  | cons rule rules inductionHypothesis =>
    rw [readyRules, Outcome.bind_eq_ok_iff]
    simp only [Outcome.bind_eq_ok_iff, readyRule_eq_ok_iff, inductionHypothesis]
    constructor
    · rintro ⟨ready, ⟨rfl, sound⟩, rest, ⟨rfl, allSound⟩, done⟩
      cases done
      exact ⟨rfl, List.forall_mem_cons.mpr ⟨sound, allSound⟩⟩
    · rintro ⟨isMap, allSound⟩
      cases all with
      | nil => cases isMap
      | cons ready rest =>
        obtain ⟨isFirst, areOthers⟩ := List.cons.inj isMap
        obtain ⟨sound, restSound⟩ := List.forall_mem_cons.mp allSound
        exact ⟨ready, ⟨isFirst, sound⟩, rest, ⟨areOthers, restSound⟩, rfl⟩

/-- A grammar of rules holds just these rules, and each of them is sound. -/
theorem ofRules_eq_ok_iff (rules : List Rule) (grammar : Grammar) :
    ofRules rules = .ok grammar ↔
      grammar.rules = rules ∧ ∀ ready ∈ grammar.ready, ready.IsSound := by
  rw [ofRules, Outcome.map_eq_ok_iff]
  simp only [readyRules_eq_ok_iff]
  constructor
  · rintro ⟨all, sound, rfl⟩
    exact sound
  · exact fun sound => ⟨grammar.ready, sound, rfl⟩

theorem ready_eq_map {grammar : Grammar} (sound : ∀ ready ∈ grammar.ready, ready.IsSound) :
    grammar.ready = grammar.rules.map Rule.madeReady := by
  rw [Grammar.rules, List.map_map]
  refine (List.map_id _).symm.trans (List.map_congr_left fun ready member => ?_)
  exact (sound ready member).eq_madeReady

end Grammar

/-! ### The reference grammar -/

namespace Reference

/-- The reference grammar, made ready. -/
def ready : Grammar :=
  ⟨rules.map Rule.madeReady⟩

theorem grammar_eq : grammar = .ok ready := by
  rfl

/-- A sentence of eight words. -/
def sentence : List Token :=
  [⟨"The", "DT"⟩, ⟨"little", "JJ"⟩, ⟨"dog", "NN"⟩, ⟨"chased", "VBD"⟩, ⟨"cats", "NNS"⟩,
    ⟨"on", "IN"⟩, ⟨"the", "DT"⟩, ⟨"mat", "NN"⟩]

theorem sentence_isComplete : ∀ token ∈ sentence, token.IsComplete := by
  simp [sentence, Token.IsComplete]

end Reference

end ShallowParse
