/-
This file proves that a grammar accepts just the rules that build no empty phrase. A
rule needs a label that is not blank, a pattern all of whose parts are fit, and a
language without the empty run. The first rule that lacks any of this is the one that
is refused, unless a pattern is beyond the limits. So the matcher of an accepted rule
never finds an empty match.
-/

import ShallowParse.Proofs.Grammar.Acceptance
import ShallowParse.Proofs.Pattern.Language

namespace ShallowParse

/-! ### Limits -/

/-- Whether a pattern is neither too deep nor too large to be made ready. -/
def Pattern.IsWithinLimits (pattern : Pattern) : Prop :=
  pattern.compile ≠ .error .tooDeep ∧ pattern.compile ≠ .error .tooLarge

/-- A pattern without a fault can be made ready within the limits. -/
theorem Pattern.IsWithinLimits.ofPattern_eq_ok {pattern : Pattern} (within : pattern.IsWithinLimits)
    (faultless : pattern.fault? = none) :
    Matcher.ofPattern pattern = .ok ⟨pattern.regex⟩ := by
  have ordered := hasOrderedBounds_of_faultless pattern faultless
  have shallow : pattern.depth ≤ depthLimit := by
    by_contra deep
    refine within.1 ?_
    rw [compile, ordered, if_neg (by decide), if_pos (Nat.lt_of_not_le deep)]
  have small : pattern.regex.size ≤ sizeLimit := by
    by_contra large
    refine within.2 ?_
    rw [compile, ordered, if_neg (by decide), if_neg (Nat.not_lt_of_le shallow),
      if_pos (Nat.lt_of_not_le large)]
  exact ofPattern_eq_ok_iff.mpr ⟨rfl, ordered, shallow, small⟩

theorem Pattern.isWithinLimits_of_ready {pattern : Pattern} {matcher : Matcher}
    (ready : Matcher.ofPattern pattern = .ok matcher) : pattern.IsWithinLimits := by
  rw [Matcher.ofPattern] at ready
  constructor
  · intro tooDeep
    rw [tooDeep] at ready
    cases ready
  · intro tooLarge
    rw [tooLarge] at ready
    cases ready

/-! ### Rules -/

/-- What a rule needs to be part of a grammar, so that it builds no empty phrase. -/
structure Rule.IsAcceptable (rule : Rule) : Prop where
  labelled : ∃ char ∈ rule.label.toList, Text.isBlank char = false
  fit : ∀ part ∈ rule.pattern.parts, part.IsFit
  takesSome : [] ∉ rule.pattern.language

theorem Text.isBlankText_eq_false_iff (text : String) :
    isBlankText text = false ↔ ∃ char ∈ text.toList, isBlank char = false := by
  rw [isBlankText, List.all_eq_false]
  simp only [Bool.not_eq_true]

namespace Grammar

/-- A rule is acceptable just if there is nothing for which it is refused. -/
theorem ruleFault?_eq_none_iff_isAcceptable (rule : Rule) :
    ruleFault? rule = none ↔ rule.IsAcceptable := by
  rw [ruleFault?_eq_none_iff, Text.isBlankText_eq_false_iff]
  constructor
  · rintro ⟨labelled, faultless, notNullable⟩
    have ordered := Pattern.hasOrderedBounds_of_faultless _ faultless
    refine ⟨labelled, (Pattern.fault?_eq_none_iff _).mp faultless, fun takesNone => ?_⟩
    have nullable := (Pattern.isNullable_iff ordered).mpr takesNone
    exact Bool.false_ne_true (notNullable.symm.trans nullable)
  · rintro ⟨labelled, fit, takesSome⟩
    have faultless := (Pattern.fault?_eq_none_iff _).mpr fit
    have ordered := Pattern.hasOrderedBounds_of_faultless _ faultless
    refine ⟨labelled, faultless, Bool.eq_false_iff.mpr fun nullable => ?_⟩
    exact takesSome ((Pattern.isNullable_iff ordered).mp nullable)

theorem ruleFault?_eq_none_of_isSound {ready : ReadyRule} (sound : ready.IsSound) :
    ruleFault? ready.rule = none :=
  (ruleFault?_eq_none_iff ready.rule).mpr ⟨sound.labelled, sound.faultless, sound.notNullable⟩

/-! ### Refusals -/

/-- Within the limits, a rule is refused only for its fault. -/
theorem readyRule_eq_error {index : Nat} {rule : Rule} {error : GrammarError}
    (within : rule.pattern.IsWithinLimits) (failed : readyRule index rule = .error error) :
    ∃ fault, ruleFault? rule = some fault ∧ error = .invalidRule index rule.label fault := by
  rw [readyRule] at failed
  cases isFault : ruleFault? rule with
  | some fault =>
    rw [isFault] at failed
    exact ⟨fault, rfl, (Except.error.inj failed).symm⟩
  | none =>
    obtain ⟨_, faultless, _⟩ := (ruleFault?_eq_none_iff rule).mp isFault
    rw [isFault, within.ofPattern_eq_ok faultless] at failed
    cases failed

/-- Within the limits, rules are refused for the fault of the first of them that has one. -/
theorem readyRules_eq_error {rules : List Rule} {index : Nat} {error : GrammarError}
    (within : ∀ rule ∈ rules, rule.pattern.IsWithinLimits)
    (failed : readyRules index rules = .error error) :
    ∃ before rule after fault, rules = before ++ rule :: after ∧
      (∀ earlier ∈ before, ruleFault? earlier = none) ∧ ruleFault? rule = some fault ∧
      error = .invalidRule (index + before.length) rule.label fault := by
  induction rules generalizing index error with
  | nil => cases failed
  | cons rule others inductionHypothesis =>
    obtain ⟨withinFirst, withinOthers⟩ := List.forall_mem_cons.mp within
    rw [readyRules, Outcome.bind_eq_error_iff] at failed
    rcases failed with isFirst | ⟨ready, isReady, failed⟩
    · obtain ⟨fault, isFault, rfl⟩ := readyRule_eq_error withinFirst isFirst
      exact ⟨[], rule, others, fault, rfl, List.forall_mem_nil _, isFault, rfl⟩
    -- The first rule is fine, so it counts among those before the one that is refused.
    · obtain ⟨rfl, sound⟩ := (readyRule_eq_ok_iff index rule ready).mp isReady
      have faultless := ruleFault?_eq_none_of_isSound sound
      rcases Outcome.bind_eq_error_iff.mp failed with areOthers | ⟨_, _, impossible⟩
      · obtain ⟨before, later, after, fault, rfl, earlier, isFault, rfl⟩ :=
          inductionHypothesis withinOthers areOthers
        refine ⟨ready.rule :: before, later, after, fault, rfl,
          List.forall_mem_cons.mpr ⟨faultless, earlier⟩, isFault, ?_⟩
        rw [List.length_cons, Nat.add_left_comm, Nat.add_comm before.length]
      · cases impossible

/-- Within the limits, rules are refused only for the first of them that is not acceptable. -/
theorem ofRules_eq_error {rules : List Rule} {error : GrammarError}
    (within : ∀ rule ∈ rules, rule.pattern.IsWithinLimits)
    (failed : ofRules rules = .error error) :
    ∃ before rule after fault, rules = before ++ rule :: after ∧
      (∀ earlier ∈ before, earlier.IsAcceptable) ∧ ¬rule.IsAcceptable ∧
      ruleFault? rule = some fault ∧ error = .invalidRule before.length rule.label fault := by
  rw [ofRules, Outcome.map_eq_error_iff] at failed
  obtain ⟨before, rule, after, fault, parted, earlier, isFault, isError⟩ :=
    readyRules_eq_error within failed
  rw [Nat.zero_add] at isError
  simp only [ruleFault?_eq_none_iff_isAcceptable] at earlier
  refine ⟨before, rule, after, fault, parted, earlier, fun acceptable => ?_, isFault, isError⟩
  rw [(ruleFault?_eq_none_iff_isAcceptable rule).mpr acceptable] at isFault
  cases isFault

end Grammar

/-! ### Matches -/

/-- What the matcher of a sound rule finds is a run of the language of its pattern, with one symbol
at least. -/
theorem ReadyRule.IsSound.exists_run {ready : ReadyRule} (sound : ready.IsSound)
    {symbols : List String} {index length : Nat}
    (found : ready.matcher.regex.matchLength? ((SymbolText.ofSymbols symbols).suffix index) =
      some length) :
    0 < length ∧ ∃ run ∈ ready.rule.pattern.language, run ≠ [] ∧ run <+: symbols.drop index ∧
      ((SymbolText.ofSymbols symbols).suffix index).take length = SymbolText.written run ∧
      ready.matcher.matchAt (.ofSymbols symbols) index = some run.length := by
  have ordered := Pattern.hasOrderedBounds_of_faultless _ sound.faultless
  have onSymbols := found
  rw [Pattern.regex_of_ready sound.ready, SymbolText.suffix_ofSymbols] at onSymbols
  obtain ⟨run, rest, parted, isWay, covers⟩ :=
    Pattern.exists_way_of_match sound.faultless onSymbols
  rw [← SymbolText.suffix_ofSymbols] at covers
  have inLanguage : run ∈ ready.rule.pattern.language := by
    obtain ⟨other, isRun, sameSymbols⟩ := (Pattern.spell_ways _ ordered _ rest).mp isWay
    rwa [List.append_cancel_right (parted.symm.trans sameSymbols)]
  have notEmpty : run ≠ [] := by
    rintro rfl
    have nullable := (Pattern.isNullable_iff ordered).mpr inLanguage
    exact Bool.false_ne_true (sound.notNullable.symm.trans nullable)
  refine ⟨Nat.pos_of_ne_zero ?_, run, inLanguage, notEmpty, ⟨rest, parted.symm⟩, covers, ?_⟩
  · rintro rfl
    exact notEmpty (SymbolText.eq_nil_of_written_eq_nil (covers.symm.trans List.take_zero))
  · rw [Pattern.matchAt_of_match found covers, if_neg notEmpty]

/-! ### Grammars -/

namespace Grammar

/-- Rules within the limits make a grammar just if all of them are acceptable. Otherwise the first
one that is not is refused, for what is wrong with it. The matcher of an accepted rule finds a run
of its language or nothing, and never an empty match. -/
theorem ofRules_refuses_empty (rules : List Rule)
    (within : ∀ rule ∈ rules, rule.pattern.IsWithinLimits) :
    ((∃ grammar, ofRules rules = .ok grammar) ↔ ∀ rule ∈ rules, rule.IsAcceptable) ∧
    (∀ error, ofRules rules = .error error →
      ∃ before rule after fault, rules = before ++ rule :: after ∧
        (∀ earlier ∈ before, earlier.IsAcceptable) ∧ ¬rule.IsAcceptable ∧
        ruleFault? rule = some fault ∧ error = .invalidRule before.length rule.label fault) ∧
    ∀ grammar, ofRules rules = .ok grammar → ∀ ready ∈ grammar.ready, ∀ symbols index length,
      ready.matcher.regex.matchLength? ((SymbolText.ofSymbols symbols).suffix index) =
        some length →
      0 < length ∧ ∃ run ∈ ready.rule.pattern.language, run ≠ [] ∧
        run <+: symbols.drop index ∧
        ((SymbolText.ofSymbols symbols).suffix index).take length = SymbolText.written run ∧
        ready.matcher.matchAt (.ofSymbols symbols) index = some run.length := by
  refine ⟨⟨?_, fun acceptable => ?_⟩, fun error => ofRules_eq_error within, ?_⟩
  · rintro ⟨grammar, accepted⟩ rule member
    obtain ⟨rfl, sound⟩ := (ofRules_eq_ok_iff rules grammar).mp accepted
    obtain ⟨ready, isReady, rfl⟩ := List.mem_map.mp member
    exact (ruleFault?_eq_none_iff_isAcceptable _).mp
      (ruleFault?_eq_none_of_isSound (sound ready isReady))
  · cases outcome : ofRules rules with
    | ok grammar => exact ⟨grammar, rfl⟩
    | error error =>
      obtain ⟨before, rule, after, _, rfl, _, notAcceptable, _⟩ := ofRules_eq_error within outcome
      exact absurd (acceptable rule (List.mem_append_right _ List.mem_cons_self)) notAcceptable
  · intro grammar accepted ready member symbols index length found
    obtain ⟨_, sound⟩ := (ofRules_eq_ok_iff rules grammar).mp accepted
    exact (sound ready member).exists_run found

/-- Any number of adjectives, also none. -/
def looseModifiers : Rule :=
  ⟨"MOD", .zeroOrMore (.startingWith "JJ")⟩

theorem ofRules_refuses_empty_looseModifiers :
    (∀ rule ∈ Reference.rules ++ [looseModifiers], rule.pattern.IsWithinLimits) ∧
      (∀ rule ∈ Reference.rules, rule.IsAcceptable) ∧ ¬looseModifiers.IsAcceptable ∧
      ¬∃ grammar, ofRules (Reference.rules ++ [looseModifiers]) = .ok grammar := by
  have ofReference : ∀ rule ∈ Reference.rules, rule.pattern.IsWithinLimits := by
    obtain ⟨isRules, sound⟩ := (ofRules_eq_ok_iff _ _).mp Reference.grammar_eq
    rw [← isRules]
    intro rule member
    obtain ⟨ready, isReady, rfl⟩ := List.mem_map.mp member
    exact Pattern.isWithinLimits_of_ready (sound ready isReady).ready
  have ofModifiers : looseModifiers.pattern.IsWithinLimits :=
    Pattern.isWithinLimits_of_ready
      (show Matcher.ofPattern looseModifiers.pattern = .ok ⟨looseModifiers.pattern.regex⟩ from rfl)
  have within : ∀ rule ∈ Reference.rules ++ [looseModifiers], rule.pattern.IsWithinLimits :=
    List.forall_mem_append.mpr ⟨ofReference, List.forall_mem_singleton.mpr ofModifiers⟩
  have acceptable := (ofRules_refuses_empty _ ofReference).1.mp ⟨_, Reference.grammar_eq⟩
  have refused : ¬looseModifiers.IsAcceptable := fun accepted =>
    accepted.takesSome (Ways.nil_mem_languageBetween _ none)
  exact ⟨within, acceptable, refused, fun accepted => refused
    ((ofRules_refuses_empty _ within).1.mp accepted _
      (List.mem_append_right _ (List.mem_singleton_self _)))⟩

end Grammar

end ShallowParse
