/-
This file says which rules that were read from a text are read from their own text
again. These are the rules in which no alternation stands directly inside another one,
classes apart. The printer writes no brackets there, so the inner alternatives are read
as alternatives of the outer alternation. What comes of this is stable: it is a rule
that its own text is read as, whatever the first one was.
-/

import ShallowParse.Proofs.Notation.RuleTexts
import ShallowParse.Proofs.Pattern.Meaning

namespace ShallowParse

namespace Pattern

/-! ### Alternations that keep their brackets -/

/-- Whether every alternation directly inside another one is a class, so that each alternation is
held together when the pattern is written. -/
def keepsBrackets (pattern : Pattern) : Bool :=
  pattern.nestedAre fun _ => false

/-- A pattern that stands for itself among alternatives is read as one alternative. -/
theorem rereadAlternatives_of_standsAlone {pattern : Pattern}
    (alone : pattern.standsFor (fun _ => false) = true) :
    pattern.rereadAlternatives = [pattern.reread] := by
  cases pattern with
  | alternation alternatives =>
    have isClass : (alternation alternatives).isClass = true := by
      rwa [standsFor, Bool.or_false] at alone
    rw [reread, rereadAlternatives_of_isClass isClass]
    rfl
  | _ => rfl

/-- Any other pattern is read as several. -/
theorem two_le_rereadAlternatives {pattern : Pattern}
    (notAlone : pattern.standsFor (fun _ => false) = false)
    (collapsed : pattern.isCollapsed = true) : 2 ≤ pattern.rereadAlternatives.length := by
  cases pattern with
  | alternation alternatives =>
    have noClass : (alternation alternatives).isClass = false := by
      rwa [standsFor, Bool.or_false] at notAlone
    obtain ⟨several, areCollapsed⟩ := isCollapsed_alternation_iff.mp collapsed
    rw [rereadAlternatives, if_neg (Bool.not_eq_true _ ▸ noClass)]
    exact Nat.le_trans several (length_le_rereadAny alternatives areCollapsed)
  | _ => cases notAlone

theorem nestedAreInAny_of_tests (kind : List Pattern → Bool) {tests : List Pattern}
    (areTests : ∀ test ∈ tests, test.isTest = true) : nestedAreInAny kind tests = true := by
  induction tests with
  | nil => rfl
  | cons test tests inductionHypothesis =>
    obtain ⟨isTest, areOthers⟩ := List.forall_mem_cons.mp areTests
    rw [nestedAreInAny, inductionHypothesis areOthers]
    cases test with
    | exactly tag => rfl
    | startingWith stem => rfl
    | _ => cases isTest

mutual

/-- A pattern without spare brackets is read again as it is just if all its alternations keep their
brackets. -/
theorem reread_eq_self_iff : (pattern : Pattern) → pattern.isCollapsed = true →
    (pattern.reread = pattern ↔ pattern.keepsBrackets = true)
  | exactly _, _ | startingWith _, _ => ⟨fun _ => rfl, fun _ => rfl⟩
  | alternation alternatives, collapsed => by
    obtain ⟨several, areCollapsed⟩ := isCollapsed_alternation_iff.mp collapsed
    have ofAll := rereadAny_eq_self_iff alternatives areCollapsed
    cases isClass : (alternation alternatives).isClass with
    | true =>
      -- A class is written as a whole, and no test in it has alternatives to give up.
      refine ⟨fun _ => ?_, fun _ => reread_of_isClass isClass collapsed⟩
      exact nestedAreInAny_of_tests _ (isTest_of_mem_classTests isClass).2
    | false =>
      rw [reread_alternation isClass collapsed]
      exact ⟨fun same => ofAll.mp (alternation.inj same),
        fun keeps => congrArg alternation (ofAll.mpr keeps)⟩
  | repetition body least most, collapsed => by
    rw [reread_repetition, keepsBrackets, nestedAre, ← keepsBrackets,
      ← reread_eq_self_iff body collapsed]
    exact ⟨fun same => (repetition.inj same).1, fun same => same.symm ▸ rfl⟩
  | sequence items, collapsed => by
    rw [reread_sequence collapsed, keepsBrackets, nestedAre,
      ← map_reread_eq_self_iff items (isCollapsed_sequence_iff.mp collapsed).2.2]
    exact ⟨sequence.inj, congrArg sequence⟩

theorem rereadAny_eq_self_iff : (patterns : List Pattern) → areCollapsed patterns = true →
    (rereadAny patterns = patterns ↔ nestedAreInAny (fun _ => false) patterns = true)
  | [], _ => ⟨fun _ => rfl, fun _ => rfl⟩
  | pattern :: patterns, collapsed => by
    obtain ⟨ofFirst, ofRest⟩ := Bool.and_eq_true_iff.mp collapsed
    rw [rereadAny, nestedAreInAny]
    cases alone : pattern.standsFor (fun _ => false) with
    | true =>
      rw [rereadAlternatives_of_standsAlone alone, Bool.true_and, Bool.and_eq_true_iff,
        ← keepsBrackets, ← reread_eq_self_iff pattern ofFirst,
        ← rereadAny_eq_self_iff patterns ofRest]
      exact List.cons_eq_cons
    | false =>
      -- The row would have to be longer than it is.
      refine ⟨fun same => ?_, fun keeps => nomatch keeps⟩
      have asMany := congrArg List.length same
      have several := two_le_rereadAlternatives alone ofFirst
      have others := length_le_rereadAny patterns ofRest
      rw [List.length_append, List.length_cons] at asMany
      omega

theorem map_reread_eq_self_iff : (patterns : List Pattern) → areCollapsed patterns = true →
    (patterns.map reread = patterns ↔ nestedAreInOrder (fun _ => false) patterns = true)
  | [], _ => ⟨fun _ => rfl, fun _ => rfl⟩
  | pattern :: patterns, collapsed => by
    obtain ⟨ofFirst, ofRest⟩ := Bool.and_eq_true_iff.mp collapsed
    rw [List.map_cons, nestedAreInOrder, Bool.and_eq_true_iff, ← keepsBrackets,
      ← reread_eq_self_iff pattern ofFirst, ← map_reread_eq_self_iff patterns ofRest]
    exact List.cons_eq_cons

end

end Pattern

/-! ### Rules -/

namespace Rule

/-- A rule that is read from a text can be written, and there are no spare brackets in it. -/
theorem isRead_of_ofText {text : String} {rule : Rule} (read : ofText text = .ok rule) :
    rule.IsRead := by
  obtain ⟨lexemes, lexed, _, isLine⟩ := exists_lexemes_of_ofText read
  obtain ⟨ofLabel, ofPattern⟩ :=
    RuleLine.isRead_of_ofLexemes (Lexeme.isLexed_of_ofText lexed) isLine
  exact ⟨ofLabel rule.label rfl, ofPattern rule.pattern rfl⟩

theorem reread_eq_self_iff {rule : Rule} (isRead : rule.IsRead) :
    rule.reread = rule ↔ rule.pattern.keepsBrackets = true := by
  rw [← Pattern.reread_eq_self_iff rule.pattern isRead.pattern.collapsed]
  exact ⟨congrArg Rule.pattern, congrArg (Rule.mk rule.label)⟩

theorem written_reread {rule : Rule} (isRead : rule.IsRead) :
    rule.reread.written = rule.written := by
  rw [written, written, reread, Pattern.written_reread isRead.pattern.collapsed]

/-- The text of a rule that was read is read as the rule with its pattern read again. This is the
rule itself just if no alternation stands directly inside another one, classes apart. In any case
the rule that is read has the same text and is read from it. -/
theorem ofText_written_repeats {text : String} {rule : Rule} (read : ofText text = .ok rule) :
    ofText rule.written = .ok rule.reread ∧
      (ofText rule.written = .ok rule ↔ rule.pattern.keepsBrackets = true) ∧
      rule.reread.written = rule.written ∧ ofText rule.reread.written = .ok rule.reread := by
  have isRead := isRead_of_ofText read
  have again : ofText rule.written = .ok rule.reread :=
    ofText_written_of_isFilled isRead.label isRead.pattern.writable isRead.pattern.filled
  have sameText := written_reread isRead
  refine ⟨again, ?_, sameText, sameText ▸ again⟩
  rw [again, ← reread_eq_self_iff isRead]
  exact ⟨Except.ok.inj, congrArg Except.ok⟩

/-- A noun phrase with alternatives before the noun. -/
def nounPhrase : Rule :=
  ⟨"NP", .sequence [.optional (.alternation [.exactly "DT", .exactly "PRP$"]),
    .zeroOrMore (.alternation [.startingWith "JJ", .exactly "VBN"]),
    .oneOrMore (.startingWith "NN")]⟩

/-- It may have spare brackets at first, since these are not written again. -/
theorem ofText_written_repeats_nounPhrase :
    ofText "NP: \x7b<DT|PRP\\$>?((<JJ.*>|<VBN>)*)(<NN.*>+)\x7d" = .ok nounPhrase ∧
      nounPhrase.written = "NP: \x7b<DT|PRP$>?<JJ.*|VBN>*<NN.*>+\x7d" ∧
      ofText nounPhrase.written = .ok nounPhrase := by
  have read : ofText "NP: \x7b<DT|PRP\\$>?((<JJ.*>|<VBN>)*)(<NN.*>+)\x7d" = .ok nounPhrase := by
    rfl
  exact ⟨read, by decide +kernel, (ofText_written_repeats read).2.1.mpr (by decide)⟩

/-- An alternation directly inside another one. -/
def nestedAlternatives : Rule :=
  ⟨"X", .alternation
    [.alternation [.sequence [.exactly "A", .exactly "B"], .exactly "C"], .exactly "D"]⟩

/-- The inner alternation gives up its alternatives to the outer one. -/
theorem ofText_written_ne :
    ofText "X: \x7b(<A><B>|<C>)|<D>\x7d" = .ok nestedAlternatives ∧
      nestedAlternatives.written = "X: \x7b<A><B>|<C>|<D>\x7d" ∧
      ofText nestedAlternatives.written = .ok ⟨"X", .alternation
        [.sequence [.exactly "A", .exactly "B"], .exactly "C", .exactly "D"]⟩ ∧
      ofText nestedAlternatives.written ≠ .ok nestedAlternatives := by
  have again : ofText nestedAlternatives.written = .ok ⟨"X", .alternation
      [.sequence [.exactly "A", .exactly "B"], .exactly "C", .exactly "D"]⟩ := by rfl
  refine ⟨by rfl, by decide +kernel, again, ?_⟩
  rw [again]
  exact nofun

end Rule

end ShallowParse
