/-
This file proves that the text of rules, one on each line, is read as these rules with
their patterns read again. A written rule stands on one line, since line breaks could
only come from the tags in it, and the reader of rules takes it as it is, whatever it
has read before.
-/

import Mathlib.Data.List.Forall2
import ShallowParse.Proofs.Notation.ReadRules
import ShallowParse.Proofs.Text.Lines

namespace ShallowParse

/-! ### Patterns on one line -/

namespace Pattern

theorem noBreak_escaped {tag : List Char} (noBreak : '\n' ∉ tag) : '\n' ∉ escaped tag := by
  intro member
  obtain ⟨char, isChar, written⟩ := List.mem_flatMap.mp member
  split at written
  · rcases List.mem_cons.mp written with isBackslash | isSame
    · cases isBackslash
    · exact noBreak (List.mem_singleton.mp isSame ▸ isChar)
  · exact noBreak (List.mem_singleton.mp written ▸ isChar)

theorem noBreak_testBody {test : Pattern} (onOneLine : test.isTestOnOneLine) :
    '\n' ∉ test.testBody := by
  cases test with
  | exactly tag => exact noBreak_escaped onOneLine
  | startingWith stem => exact List.not_mem_append (noBreak_escaped onOneLine) (by decide)
  | _ => exact List.not_mem_nil

theorem noBreak_classBody {pattern : Pattern} (isClass : pattern.isClass = true)
    (writable : pattern.isWritable = true) : '\n' ∉ pattern.classBody := by
  rw [classBody_eq]
  refine Text.notMem_intercalate (by decide) fun text member => ?_
  obtain ⟨test, isTest, rfl⟩ := List.mem_map.mp member
  refine noBreak_testBody (isTestOnOneLine_of_isWritable ?_)
  cases pattern with
  | alternation alternatives => exact isWritable_of_mem writable test isTest
  | repetition body least most => cases isClass
  | sequence items => cases isClass
  | _ => exact List.mem_singleton.mp isTest ▸ writable

theorem noBreak_digits (number : Nat) : '\n' ∉ digits number := fun member =>
  Bool.false_ne_true (isDigit_of_mem_digits number _ member)

theorem noBreak_quantifier (least : Nat) (most : Option Nat) : '\n' ∉ quantifier least most := by
  have ofLeast := noBreak_digits least
  cases most with
  | none =>
    rw [quantifier]
    split
    · decide
    · split
      · decide
      · simp [ofLeast]
  | some most =>
    have ofMost := noBreak_digits most
    rw [quantifier]
    split
    · decide
    · split
      · simp [ofLeast]
      · simp [ofLeast, ofMost]

theorem noBreak_held {pattern : Pattern} (writable : pattern.isWritable = true) {text : List Char}
    (noBreak : '\n' ∉ text) : '\n' ∉ held pattern text := by
  rw [held]
  split
  · rename_i isClass
    have ofBody := noBreak_classBody isClass writable
    simp [ofBody]
  · simp [noBreak]

mutual

/-- A pattern that can be written stands on one line. -/
theorem noBreak_loose : (pattern : Pattern) → pattern.isWritable = true → '\n' ∉ pattern.loose
  | exactly tag, writable => noBreak_held writable List.not_mem_nil
  | startingWith stem, writable => noBreak_held writable List.not_mem_nil
  | alternation alternatives, writable => by
    rw [loose]
    split
    · exact noBreak_held writable List.not_mem_nil
    · exact Text.notMem_intercalate (by decide) (noBreak_looseAll alternatives writable)
  | repetition body least most, writable => by
    have ofBody := (isWritable_repetition writable).2.2
    exact List.not_mem_append (noBreak_held ofBody (noBreak_loose body ofBody))
      (noBreak_quantifier least most)
  | sequence items, writable => noBreak_sequenceText items (isWritable_sequence writable).2

theorem noBreak_looseAll : (patterns : List Pattern) → areWritable patterns = true →
    ∀ text ∈ looseAll patterns, '\n' ∉ text
  | [], _ => List.forall_mem_nil _
  | pattern :: patterns, writable => by
    obtain ⟨ofFirst, ofRest⟩ := Bool.and_eq_true_iff.mp writable
    exact List.forall_mem_cons.mpr
      ⟨noBreak_loose pattern ofFirst, noBreak_looseAll patterns ofRest⟩

theorem noBreak_sequenceText : (items : List Pattern) → areWritable items = true →
    '\n' ∉ sequenceText items
  | [], _ => List.not_mem_nil
  | item :: items, writable => by
    obtain ⟨ofFirst, ofRest⟩ := Bool.and_eq_true_iff.mp writable
    have noBreak := noBreak_loose item ofFirst
    rw [sequenceText]
    refine List.not_mem_append ?_ (noBreak_sequenceText items ofRest)
    split
    · exact noBreak_held ofFirst noBreak
    · exact noBreak

end

end Pattern

/-! ### Rules on one line -/

namespace Rule

theorem noBreak_label {label : List Char} (isLabel : Lexeme.isLabel label = true) :
    '\n' ∉ label := by
  cases label with
  | nil => exact List.not_mem_nil
  | cons first more =>
    obtain ⟨isStart, areMore⟩ := Bool.and_eq_true_iff.mp isLabel
    intro member
    rcases List.mem_cons.mp member with rfl | inMore
    · exact absurd isStart (by decide)
    · exact absurd (List.all_eq_true.mp areMore _ inMore) (by decide)

theorem noBreak_written {rule : Rule} (isRead : rule.IsRead) : '\n' ∉ rule.written.toList := by
  have ofLabel := noBreak_label isRead.label
  have ofPattern := Pattern.noBreak_loose rule.pattern isRead.pattern.writable
  rw [toList_written]
  simp [ofLabel, ofPattern]

theorem noReturn_written (rule : Rule) : rule.written.toList.getLast? ≠ some '\r' := by
  rw [toList_written, List.getLast?_concat]
  decide

/-- The rule that a written rule is read as. -/
def reread (rule : Rule) : Rule :=
  ⟨rule.label, rule.pattern.reread⟩

end Rule

/-! ### Reading lines of rules -/

/-- A text that is read as a rule has lexemes, which are a label and a pattern. -/
theorem Rule.exists_lexemes_of_ofText {text : String} {rule : Rule}
    (read : Rule.ofText text = .ok rule) :
    ∃ lexemes, Lexeme.ofText text = .ok lexemes ∧ lexemes.isEmpty = false ∧
      RuleLine.ofLexemes lexemes = .ok ⟨some rule.label, some rule.pattern⟩ := by
  obtain ⟨lexemes, lexed, read⟩ := Outcome.bind_eq_ok_iff.mp read
  obtain ⟨⟨label, pattern⟩, isLine, read⟩ := Outcome.bind_eq_ok_iff.mp read
  cases label with
  | none => cases read
  | some label =>
    cases pattern with
    | none => cases read
    | some pattern =>
      cases read
      refine ⟨lexemes, lexed, ?_, isLine⟩
      cases lexemes with
      | nil => cases isLine
      | cons first others => rfl

namespace RulesReader

/-- A line that is a rule adds this rule, unless a label still waits for a pattern. -/
theorem addText_rule {text : String} {rule : Rule} (read : Rule.ofText text = .ok rule)
    (reader : RulesReader) (noneWaits : reader.pending = none) (line : Nat) :
    reader.addText line text = .ok ⟨rule :: reader.rules, some rule.label, none⟩ := by
  obtain ⟨lexemes, lexed, notEmpty, isLine⟩ := Rule.exists_lexemes_of_ofText read
  obtain ⟨rules, label, pending⟩ := reader
  subst noneWaits
  rw [addText, lexed]
  change (if lexemes.isEmpty then _ else _) = _
  rw [if_neg (by rw [notEmpty]; exact Bool.false_ne_true), isLine]
  rfl

theorem addLines_rules {texts : List String} {rules : List Rule}
    (read : List.Forall₂ (fun text rule => Rule.ofText text = .ok rule) texts rules)
    (reader : RulesReader) (noneWaits : reader.pending = none) (line : Nat) :
    ∃ next, reader.addLines line texts = .ok next ∧ next.pending = none ∧
      next.rules = rules.reverse ++ reader.rules := by
  induction read generalizing reader line with
  | nil => exact ⟨reader, rfl, noneWaits, rfl⟩
  | @cons text rule texts rules isRule _ inductionHypothesis =>
    obtain ⟨next, added, noneLeft, areRules⟩ :=
      inductionHypothesis ⟨rule :: reader.rules, some rule.label, none⟩ rfl (line + 1)
    refine ⟨next, ?_, noneLeft, ?_⟩
    · rw [addLines, addText_rule isRule reader noneWaits]
      exact added
    · rw [areRules, List.reverse_cons, List.append_assoc]
      rfl

end RulesReader

/-- Lines that are each a rule are read as these rules. -/
theorem Rule.allOfText_eq_ok {text : String} {rules : List Rule}
    (read : List.Forall₂ (fun text rule => Rule.ofText text = .ok rule) (Text.lines text) rules) :
    allOfText text = .ok rules := by
  obtain ⟨next, added, noneLeft, areRules⟩ :=
    RulesReader.addLines_rules read RulesReader.start rfl 1
  rw [allOfText, added]
  show next.finish = _
  rw [RulesReader.finish, RulesReader.unfinished?, noneLeft, areRules]
  show Except.ok (rules.reverse ++ []).reverse = _
  rw [List.append_nil, List.reverse_reverse]

/-- Written rules, one on each line, are read as the rules with their patterns read again. -/
theorem Rule.allOfText_written {rules : List Rule} (areRead : ∀ rule ∈ rules, rule.IsRead)
    (faultless : ∀ rule ∈ rules, rule.pattern.fault? = none) :
    allOfText (String.join (rules.map fun rule => rule.written ++ "\n")) =
      .ok (rules.map reread) := by
  have areTexts :
      (rules.map fun rule => rule.written ++ "\n") = (rules.map written).map (· ++ "\n") := by
    rw [List.map_map]
    rfl
  have cut : Text.lines (String.join (rules.map fun rule => rule.written ++ "\n")) =
      rules.map written := by
    rw [areTexts]
    refine Text.lines_join ?_ ?_
    · exact List.forall_mem_map.mpr fun rule member => noBreak_written (areRead rule member)
    · exact List.forall_mem_map.mpr fun rule _ => noReturn_written rule
  refine allOfText_eq_ok ?_
  rw [cut, List.forall₂_map_left_iff, List.forall₂_map_right_iff, List.forall₂_same]
  intro rule member
  exact Rule.ofText_written (areRead rule member).label (areRead rule member).pattern.writable
    (faultless rule member)

end ShallowParse
