/-
This file proves that rules which were read from a text can be written. A derivation
from lexemes of a text has only tags on one line, none of them empty, and bounds within
the limit, whatever its shape. And since its value is put together by the collapsing
constructors, there are no spare brackets in it.
-/

import ShallowParse.Proofs.Notation.ClassReading
import ShallowParse.Proofs.Notation.LexedText
import ShallowParse.Proofs.Notation.Reprinting
import ShallowParse.Proofs.Outcome

namespace ShallowParse

/-! ### Tag classes -/

namespace TagClass

/-- The signs of a body are characters of it. -/
theorem char_mem_of_signs? {body : List Char} {signs : List Sign}
    (found : signs? body = some signs) : ∀ sign ∈ signs, sign.char ∈ body := by
  fun_induction signs? body generalizing signs with
  | case1 =>
    cases found
    exact List.forall_mem_nil _
  | case2 => cases found
  | case3 char rest inductionHypothesis =>
    obtain ⟨others, areOthers, rfl⟩ := Option.map_eq_some_iff.mp found
    refine List.forall_mem_cons.mpr
      ⟨List.mem_cons_of_mem _ List.mem_cons_self, fun sign member => ?_⟩
    have inRest := inductionHypothesis areOthers sign member
    exact List.mem_cons_of_mem _ (List.mem_cons_of_mem _ inRest)
  | case4 char rest _ _ _ inductionHypothesis =>
    exact fun sign member => List.mem_cons_of_mem _ (inductionHypothesis found sign member)
  | case5 char rest _ _ _ inductionHypothesis =>
    obtain ⟨others, areOthers, rfl⟩ := Option.map_eq_some_iff.mp found
    refine List.forall_mem_cons.mpr ⟨List.mem_cons_self, fun sign member => ?_⟩
    exact List.mem_cons_of_mem _ (inductionHypothesis areOthers sign member)

theorem parts_ne_nil (signs : List Sign) : parts signs ≠ [] := by
  fun_cases parts signs <;> exact List.cons_ne_nil _ _

/-- The parts of signs are made up of them. -/
theorem mem_of_mem_parts {signs : List Sign} : ∀ part ∈ parts signs, part ⊆ signs := by
  induction signs with
  | nil => exact List.forall_mem_singleton.mpr (List.Subset.refl _)
  | cons sign rest inductionHypothesis =>
    have ofRest : ∀ part ∈ parts rest, part ⊆ sign :: rest := fun part member _ isSign =>
      List.mem_cons_of_mem sign (inductionHypothesis part member isSign)
    rw [parts]
    split
    · exact List.forall_mem_cons.mpr ⟨List.nil_subset _, ofRest⟩
    · split
      · rename_i part others isParts
        rw [isParts, List.forall_mem_cons] at ofRest
        exact List.forall_mem_cons.mpr
          ⟨List.cons_subset.mpr ⟨List.mem_cons_self, ofRest.1⟩, ofRest.2⟩
      · exact List.forall_mem_singleton.mpr
          (List.cons_subset.mpr ⟨List.mem_cons_self, List.nil_subset _⟩)

theorem stem_subset (part : List Sign) : (stem? part).getD part ⊆ part := by
  rw [stem?]
  split
  · exact List.take_subset _ _
  · exact List.Subset.refl _

/-- A test has the characters of the part that it is read from. -/
theorem isTestOnOneLine_of_alternative {body : String} {part : List Sign} {test : Pattern}
    (noBreak : ∀ sign ∈ part, sign.char ≠ '\n') (read : alternative body part = .ok test) :
    test.isTestOnOneLine := by
  have within : '\n' ∉ (tagOf ((stem? part).getD part)).toList := by
    rw [tagOf, String.toList_ofList]
    intro isBreak
    obtain ⟨sign, member, isChar⟩ := List.mem_map.mp isBreak
    exact noBreak sign (stem_subset part member) isChar
  rcases test_of_alternative read with rfl | rfl <;> exact within

/-- A test is not read from nothing but blanks. -/
theorem faultless_of_alternative {body : String} {part : List Sign} {test : Pattern}
    (read : alternative body part = .ok test) : test.fault? = none := by
  rw [alternative] at read
  split at read
  · cases read
  · split at read
    · cases read
      rfl
    · split at read
      · cases read
      · rename_i some
        cases read
        refine if_neg fun isEmpty => some ?_
        simpa [tagOf] using isEmpty

end TagClass

/-! ### Patterns -/

namespace Pattern

/-- Whether a pattern is as the reader of lines makes it: it can be written, there are no spare
brackets, and nothing in it is empty. -/
structure IsRead (pattern : Pattern) : Prop where
  writable : pattern.isWritable = true
  collapsed : pattern.isCollapsed = true
  filled : pattern.IsFilled

/-- Whether patterns are the items of a sequence as the reader of lines makes them. -/
structure AreReadItems (items : List Pattern) : Prop where
  notEmpty : items ≠ []
  areRead : ∀ item ∈ items, item.IsRead
  noSequence : ∀ item ∈ items, item.isSequence = false

theorem areWritable_of_mem {patterns : List Pattern}
    (writable : ∀ pattern ∈ patterns, pattern.isWritable = true) : areWritable patterns = true := by
  induction patterns with
  | nil => rfl
  | cons pattern patterns inductionHypothesis =>
    obtain ⟨first, rest⟩ := List.forall_mem_cons.mp writable
    exact Bool.and_eq_true_iff.mpr ⟨first, inductionHypothesis rest⟩

theorem isRead_anyOf {alternatives : List Pattern} (notEmpty : alternatives ≠ [])
    (areRead : ∀ alternative ∈ alternatives, alternative.IsRead) : (anyOf alternatives).IsRead :=
  match alternatives with
  | [] => absurd rfl notEmpty
  | [alternative] => areRead alternative List.mem_cons_self
  | _ :: _ :: _ =>
    ⟨areWritable_of_mem fun alternative member => (areRead alternative member).writable,
      isCollapsed_alternation_iff.mpr ⟨Nat.le_add_left 2 _,
        areCollapsed_iff.mpr fun alternative member => (areRead alternative member).collapsed⟩,
      isFilled_alternation_iff.mpr ⟨notEmpty,
        fun alternative member => (areRead alternative member).filled⟩⟩

theorem AreReadItems.singleton {item : Pattern} (isRead : item.IsRead)
    (noSequence : item.isSequence = false) : AreReadItems [item] :=
  ⟨List.cons_ne_nil _ _, List.forall_mem_singleton.mpr isRead,
    List.forall_mem_singleton.mpr noSequence⟩

theorem AreReadItems.append {first second : List Pattern} (ofFirst : AreReadItems first)
    (ofSecond : AreReadItems second) : AreReadItems (first ++ second) :=
  ⟨List.append_ne_nil_of_left_ne_nil ofFirst.notEmpty second,
    List.forall_mem_append.mpr ⟨ofFirst.areRead, ofSecond.areRead⟩,
    List.forall_mem_append.mpr ⟨ofFirst.noSequence, ofSecond.noSequence⟩⟩

theorem AreReadItems.row {items : List Pattern} (areItems : AreReadItems items) :
    (Pattern.row items).IsRead :=
  match items, areItems with
  | [], areItems => absurd rfl areItems.notEmpty
  | [item], areItems => areItems.areRead item List.mem_cons_self
  | _ :: _ :: _, areItems =>
    ⟨areWritable_of_mem fun item member => (areItems.areRead item member).writable,
      isCollapsed_sequence_iff.mpr ⟨Nat.le_add_left 2 _, areItems.noSequence,
        areCollapsed_iff.mpr fun item member => (areItems.areRead item member).collapsed⟩,
      isFilled_sequence_iff.mpr fun item member => (areItems.areRead item member).filled⟩

theorem IsRead.items {pattern : Pattern} (isRead : pattern.IsRead) : AreReadItems pattern.items := by
  cases pattern with
  | sequence items =>
    obtain ⟨notEmpty, writable⟩ := isWritable_sequence isRead.writable
    obtain ⟨_, noSequence, collapsed⟩ := isCollapsed_sequence_iff.mp isRead.collapsed
    exact ⟨notEmpty, fun item member => ⟨isWritable_of_mem writable item member,
      areCollapsed_iff.mp collapsed item member,
      isFilled_sequence_iff.mp isRead.filled item member⟩, noSequence⟩
  | _ => exact .singleton isRead rfl

theorem isRead_of_isTest {test : Pattern} (isTest : test.isTest = true)
    (onOneLine : test.isTestOnOneLine) (faultless : test.fault? = none) : test.IsRead := by
  have filled := isFilled_of_faultless faultless
  cases test with
  | exactly tag => exact ⟨by simpa [isWritable, isTestOnOneLine] using onOneLine, rfl, filled⟩
  | startingWith stem =>
    exact ⟨by simpa [isWritable, isTestOnOneLine] using onOneLine, rfl, filled⟩
  | _ => cases isTest

theorem isSequence_anyOf_of_tests {tests : List Pattern}
    (areTests : ∀ test ∈ tests, test.isTest = true) : (anyOf tests).isSequence = false :=
  match tests with
  | [] => rfl
  | [test] => by
    have isTest := areTests test List.mem_cons_self
    cases test with
    | sequence items => cases isTest
    | _ => rfl
  | _ :: _ :: _ => rfl

end Pattern

/-- A class is read as a pattern that can be written and is no sequence. -/
theorem TagClass.isRead_of_read {body : String} {pattern : Pattern} (noBreak : '\n' ∉ body.toList)
    (readable : read body = .ok pattern) : pattern.IsRead ∧ pattern.isSequence = false := by
  obtain ⟨signs, tests, found, rfl, asMany, areRead⟩ := exists_tests_of_read readable
  have notEmpty : tests ≠ [] := by
    rw [← List.length_pos_iff, asMany, List.length_pos_iff]
    exact parts_ne_nil signs
  have ofTest : ∀ test ∈ tests, test.isTest = true ∧ test.IsRead := by
    intro test member
    obtain ⟨part, isPart, isRead⟩ := areRead test member
    have isTest := isTest_of_alternative body part test isRead
    refine ⟨isTest, Pattern.isRead_of_isTest isTest
      (isTestOnOneLine_of_alternative (fun sign isSign isBreak => ?_) isRead)
      (faultless_of_alternative isRead)⟩
    have isChar := char_mem_of_signs? found sign (mem_of_mem_parts part isPart isSign)
    exact noBreak (isBreak ▸ isChar)
  exact ⟨Pattern.isRead_anyOf notEmpty fun test member => (ofTest test member).2,
    Pattern.isSequence_anyOf_of_tests fun test member => (ofTest test member).1⟩

/-! ### Derivations -/

theorem Quantifier.isRead_quantified {quantifier : Quantifier} (isLexed : quantifier.lexeme.IsLexed)
    {body : Pattern} (isRead : body.IsRead) : (quantifier.quantified body).IsRead := by
  obtain ⟨writable, collapsed, filled⟩ := isRead
  have stillFilled (least : Nat) (most : Option Nat) :
      (Pattern.repetition body least most).IsFilled := Pattern.isFilled_repetition_iff.mpr filled
  cases quantifier with
  | bounds least most =>
    obtain ⟨small, smallMost⟩ := isLexed
    refine ⟨?_, collapsed, stillFilled least most⟩
    rw [quantified, Pattern.isWritable, writable, decide_eq_true small, Bool.true_and, Bool.and_true,
      Option.all_eq_true]
    exact fun bound isBound => decide_eq_true (smallMost bound isBound)
  | _ => exact ⟨writable, collapsed, stillFilled _ _⟩

theorem Quantifier.isSequence_quantified (quantifier : Quantifier) (body : Pattern) :
    (quantifier.quantified body).isSequence = false := by
  cases quantifier <;> rfl

theorem isRead_quantifiers {quantifiers : List Quantifier}
    (areLexed : ∀ lexeme ∈ quantifiers.map Quantifier.lexeme, lexeme.IsLexed) {body : Pattern}
    (isRead : body.IsRead) : (quantifiers.foldl Quantifier.quantified body).IsRead := by
  induction quantifiers generalizing body with
  | nil => exact isRead
  | cons quantifier others inductionHypothesis =>
    obtain ⟨isLexed, areLexed⟩ := List.forall_mem_cons.mp areLexed
    exact inductionHypothesis areLexed (quantifier.isRead_quantified isLexed isRead)

theorem isSequence_quantifiers (quantifiers : List Quantifier) {body : Pattern}
    (noSequence : body.isSequence = false) :
    (quantifiers.foldl Quantifier.quantified body).isSequence = false := by
  induction quantifiers generalizing body with
  | nil => exact noSequence
  | cons quantifier others inductionHypothesis =>
    exact inductionHypothesis (quantifier.isSequence_quantified body)

mutual

/-- The value of an atom that is derived from lexemes of a text. -/
theorem isRead_atom : (atom : AtomTree) → (∀ lexeme ∈ atom.lexemes, lexeme.IsLexed) →
    atom.value.IsRead
  | .tagClass body test readable, areLexed =>
    (TagClass.isRead_of_read (areLexed _ List.mem_cons_self) readable).1
  | .group inner, areLexed => by
    rw [AtomTree.lexemes, List.cons_append, List.forall_mem_cons, List.forall_mem_append] at areLexed
    obtain ⟨notEmpty, areRead⟩ := isRead_alternation inner areLexed.2.1
    exact Pattern.isRead_anyOf notEmpty areRead

theorem isRead_term : (term : TermTree) → (∀ lexeme ∈ term.lexemes, lexeme.IsLexed) →
    Pattern.AreReadItems term.items
  | .quantified atom quantifiers, areLexed => by
    obtain ⟨ofAtom, ofQuantifiers⟩ := List.forall_mem_append.mp areLexed
    have isRead := isRead_atom atom ofAtom
    cases atom with
    | tagClass body test readable =>
      have noSequence := (TagClass.isRead_of_read (ofAtom _ List.mem_cons_self) readable).2
      exact .singleton (isRead_quantifiers ofQuantifiers isRead)
        (isSequence_quantifiers quantifiers noSequence)
    -- Without a quantifier, the items of a sequence in brackets join those around it.
    | group inner =>
      cases quantifiers with
      | nil => exact isRead.items
      | cons quantifier others =>
        exact .singleton (isRead_quantifiers ofQuantifiers isRead)
          (isSequence_quantifiers others (quantifier.isSequence_quantified _))

theorem isRead_sequence : (sequence : SequenceTree) →
    (∀ lexeme ∈ sequence.lexemes, lexeme.IsLexed) → Pattern.AreReadItems sequence.items
  | .last term, areLexed => isRead_term term areLexed
  | .more term rest, areLexed => by
    obtain ⟨ofTerm, ofRest⟩ := List.forall_mem_append.mp areLexed
    exact (isRead_term term ofTerm).append (isRead_sequence rest ofRest)

theorem isRead_alternation : (alternation : AlternationTree) →
    (∀ lexeme ∈ alternation.lexemes, lexeme.IsLexed) →
    alternation.alternatives ≠ [] ∧ ∀ alternative ∈ alternation.alternatives, alternative.IsRead
  | .last sequence, areLexed =>
    ⟨List.cons_ne_nil _ _, List.forall_mem_singleton.mpr (isRead_sequence sequence areLexed).row⟩
  | .more sequence rest, areLexed => by
    rw [AlternationTree.lexemes, List.forall_mem_append, List.forall_mem_cons] at areLexed
    exact ⟨List.cons_ne_nil _ _, List.forall_mem_cons.mpr ⟨(isRead_sequence sequence areLexed.1).row,
      (isRead_alternation rest areLexed.2.2).2⟩⟩

end

/-! ### Lines -/

/-- Whether a rule is as the reader of rules makes it. -/
structure Rule.IsRead (rule : Rule) : Prop where
  label : Lexeme.isLabel rule.label.toList = true
  pattern : rule.pattern.IsRead

/-- The label and the pattern of a line of text. -/
theorem RuleLine.isRead_of_ofLexemes {lexemes : List Lexeme} {line : RuleLine}
    (areLexed : ∀ lexeme ∈ lexemes, lexeme.IsLexed) (read : ofLexemes lexemes = .ok line) :
    (∀ label ∈ line.label, Lexeme.isLabel label.toList = true) ∧
      ∀ pattern ∈ line.pattern, pattern.IsRead := by
  obtain ⟨⟨label, body, _⟩, rfl, rfl⟩ := (ofLexemes_eq_ok_iff lexemes line).mp read
  obtain ⟨ofLabel, ofBody⟩ := List.forall_mem_append.mp areLexed
  constructor
  · rintro _ rfl
    exact ofLabel _ List.mem_cons_self
  · intro pattern isPattern
    obtain ⟨alternation, rfl, rfl⟩ := Option.map_eq_some_iff.mp isPattern
    rw [bodyLexemes, List.cons_append, List.forall_mem_cons, List.forall_mem_append] at ofBody
    obtain ⟨notEmpty, areRead⟩ := isRead_alternation alternation ofBody.2.1
    exact Pattern.isRead_anyOf notEmpty areRead

namespace RulesReader

/-- Whether the rules read so far and the label in force are as they should be. -/
structure IsRead (reader : RulesReader) : Prop where
  rules : ∀ rule ∈ reader.rules, rule.IsRead
  label : ∀ label ∈ reader.label, Lexeme.isLabel label.toList = true

theorem isRead_setLabel {reader next : RulesReader} (isRead : reader.IsRead) {line : Nat}
    {label : String} (isLabel : Lexeme.isLabel label.toList = true) {hasPattern : Bool}
    (set : reader.setLabel line label hasPattern = .ok next) : next.IsRead := by
  rw [setLabel] at set
  split at set
  · cases set
  · cases set
    exact ⟨isRead.rules, fun other isOther => Option.some.inj isOther ▸ isLabel⟩

theorem isRead_addPattern {reader next : RulesReader} (isRead : reader.IsRead) {line : Nat}
    {pattern : Pattern} (isPattern : pattern.IsRead)
    (added : reader.addPattern line pattern = .ok next) : next.IsRead := by
  rw [addPattern] at added
  split at added
  · rename_i label inForce
    cases added
    exact ⟨List.forall_mem_cons.mpr ⟨⟨isRead.label label inForce, isPattern⟩, isRead.rules⟩,
      isRead.label⟩
  · cases added

theorem isRead_addLine {reader next : RulesReader} (isRead : reader.IsRead) {line : Nat}
    {content : RuleLine} (ofLabel : ∀ label ∈ content.label, Lexeme.isLabel label.toList = true)
    (ofPattern : ∀ pattern ∈ content.pattern, pattern.IsRead)
    (added : reader.addLine line content = .ok next) : next.IsRead := by
  obtain ⟨label, pattern⟩ := content
  have ofLabelled : ∃ labelled : RulesReader, labelled.IsRead ∧
      labelled.addLine line ⟨none, pattern⟩ = .ok next := by
    cases label with
    | none => exact ⟨reader, isRead, added⟩
    | some label =>
      obtain ⟨labelled, set, added⟩ := Outcome.bind_eq_ok_iff.mp added
      exact ⟨labelled, isRead_setLabel isRead (ofLabel label rfl) set, added⟩
  obtain ⟨labelled, labelledIsRead, added⟩ := ofLabelled
  cases pattern with
  | none =>
    cases added
    exact labelledIsRead
  | some pattern => exact isRead_addPattern labelledIsRead (ofPattern pattern rfl) added

theorem isRead_addText {reader next : RulesReader} (isRead : reader.IsRead) {line : Nat}
    {text : String} (added : reader.addText line text = .ok next) : next.IsRead := by
  rw [addText, Outcome.bind_eq_ok_iff] at added
  obtain ⟨lexemes, lexed, added⟩ := added
  split at added
  · cases added
    exact isRead
  · obtain ⟨content, read, added⟩ := Outcome.bind_eq_ok_iff.mp added
    rw [Outcome.mapError_eq_ok_iff] at lexed read
    obtain ⟨ofLabel, ofPattern⟩ := RuleLine.isRead_of_ofLexemes (Lexeme.isLexed_of_ofText lexed) read
    exact isRead_addLine isRead ofLabel ofPattern added

theorem isRead_addLines {reader next : RulesReader} (isRead : reader.IsRead) {line : Nat}
    {texts : List String} (added : reader.addLines line texts = .ok next) : next.IsRead := by
  induction texts generalizing reader line with
  | nil =>
    cases added
    exact isRead
  | cons text texts inductionHypothesis =>
    obtain ⟨after, first, added⟩ := Outcome.bind_eq_ok_iff.mp added
    exact inductionHypothesis (isRead_addText isRead first) added

end RulesReader

/-- The rules of a text can be written, and there are no spare brackets in them. -/
theorem Rule.isRead_of_allOfText {text : String} {rules : List Rule}
    (read : allOfText text = .ok rules) : ∀ rule ∈ rules, rule.IsRead := by
  obtain ⟨reader, added, finished⟩ := Outcome.bind_eq_ok_iff.mp read
  have isStart : RulesReader.start.IsRead := ⟨List.forall_mem_nil _, nofun⟩
  rw [RulesReader.finish] at finished
  split at finished
  · cases finished
  · cases finished
    exact fun rule member =>
      (RulesReader.isRead_addLines isStart added).rules rule (List.mem_reverse.mp member)

end ShallowParse
