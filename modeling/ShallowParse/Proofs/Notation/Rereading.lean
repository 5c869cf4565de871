/-
This file proves that a written pattern can be read again, and says as which
pattern. That one differs from the first where brackets are left out or put in: an
alternation inside an alternation gives up its alternatives to the outer one, a
sequence inside a sequence its items, and what holds one pattern only is that
pattern.
-/

import ShallowParse.Proofs.Notation.Lexing
import ShallowParse.Proofs.Notation.LineReading
import ShallowParse.Proofs.Pattern.Parts

namespace ShallowParse

namespace Pattern

/-! ### Patterns that can be written -/

mutual

/-- Whether a pattern can be written on one line so that it can be read: no tag or stem has a line
break, no number is larger than bounds may hold and no sequence is empty. -/
def isWritable : Pattern → Bool
  | exactly tag => !tag.toList.contains '\n'
  | startingWith stem => !stem.toList.contains '\n'
  | alternation alternatives => areWritable alternatives
  | repetition body least most =>
    decide (least ≤ Lexeme.boundLimit) && most.all (· ≤ Lexeme.boundLimit) && isWritable body
  | sequence items => !items.isEmpty && areWritable items

def areWritable : List Pattern → Bool
  | [] => true
  | pattern :: patterns => isWritable pattern && areWritable patterns

end

theorem isWritable_repetition {body : Pattern} {least : Nat} {most : Option Nat}
    (writable : (repetition body least most).isWritable = true) :
    least ≤ Lexeme.boundLimit ∧ (∀ bound ∈ most, bound ≤ Lexeme.boundLimit) ∧
      body.isWritable = true := by
  rw [isWritable, Bool.and_eq_true_iff, Bool.and_eq_true_iff] at writable
  obtain ⟨⟨small, smallMost⟩, writable⟩ := writable
  exact ⟨of_decide_eq_true small, by simpa [Option.all_eq_true] using smallMost, writable⟩

theorem isWritable_sequence {items : List Pattern}
    (writable : (sequence items).isWritable = true) : items ≠ [] ∧ areWritable items = true := by
  rw [isWritable, Bool.and_eq_true_iff] at writable
  exact ⟨by simpa using writable.1, writable.2⟩

theorem isTestOnOneLine_of_isWritable {test : Pattern} (writable : test.isWritable = true) :
    test.isTestOnOneLine := by
  cases test with
  | exactly tag => simpa [isWritable, isTestOnOneLine] using writable
  | startingWith stem => simpa [isWritable, isTestOnOneLine] using writable
  | _ => trivial

theorem isWritable_of_mem {patterns : List Pattern} (writable : areWritable patterns = true) :
    ∀ pattern ∈ patterns, pattern.isWritable = true := by
  induction patterns with
  | nil => exact List.forall_mem_nil _
  | cons pattern others inductionHypothesis =>
    obtain ⟨first, rest⟩ := Bool.and_eq_true_iff.mp writable
    exact List.forall_mem_cons.mpr ⟨first, inductionHypothesis rest⟩

/-- A test is filled just if it has no fault. -/
theorem isFilled_iff_of_isTest {test : Pattern} (isTest : test.isTest = true) :
    test.IsFilled ↔ test.fault? = none := by
  refine ⟨fun filled => ?_, isFilled_of_faultless⟩
  rw [fault?_eq_none_iff]
  cases test with
  | exactly tag =>
    rw [IsFilled, parts, List.forall_mem_singleton] at filled
    exact List.forall_mem_singleton.mpr fun isEmpty => filled.1 (isEmpty ▸ rfl)
  | startingWith stem => exact List.forall_mem_singleton.mpr trivial
  | _ => cases isTest

/-! ### The pattern read again -/

mutual

/-- The alternatives that the text of a pattern is read as. -/
def rereadAlternatives : Pattern → List Pattern
  | exactly tag => [exactly tag]
  | startingWith stem => [startingWith stem]
  | alternation alternatives =>
    if (alternation alternatives).isClass then [anyOf alternatives] else rereadAny alternatives
  | repetition body least most => [repetition (anyOf (rereadAlternatives body)) least most]
  | sequence items => [row (rereadItems items)]

/-- The alternatives that the texts of patterns are read as, with bars between them. -/
def rereadAny : List Pattern → List Pattern
  | [] => []
  | pattern :: patterns => rereadAlternatives pattern ++ rereadAny patterns

/-- The items that the texts of patterns are read as, one after the other. -/
def rereadItems : List Pattern → List Pattern
  | [] => []
  | pattern :: patterns => (anyOf (rereadAlternatives pattern)).items ++ rereadItems patterns

end

/-- The pattern that the text of a pattern is read as. -/
def reread (pattern : Pattern) : Pattern :=
  anyOf pattern.rereadAlternatives

theorem rereadAlternatives_of_isClass {pattern : Pattern} (isClass : pattern.isClass = true) :
    pattern.rereadAlternatives = [anyOf pattern.classTests] := by
  cases pattern with
  | alternation alternatives => rw [rereadAlternatives, if_pos isClass, classTests]
  | repetition body least most => cases isClass
  | sequence items => cases isClass
  | _ => rfl

theorem items_anyOf_of_tests {tests : List Pattern}
    (areTests : ∀ test ∈ tests, test.isTest = true) : (anyOf tests).items = [anyOf tests] := by
  cases tests with
  | nil => rfl
  | cons test others =>
    cases others with
    | nil =>
      have isTest := areTests test List.mem_cons_self
      cases test with
      | sequence items => cases isTest
      | _ => rfl
    | cons next others => rfl

/-- The text of an item of a sequence. -/
def itemText (item : Pattern) : List Char :=
  if item.isHeldItem then held item item.loose else item.loose

end Pattern

/-! ### Rows -/

/-- The items of two rows in one. -/
def Row.append {Item : Type} : Row Item → Row Item → Row Item
  | last item, second => more item second
  | more item rest, second => more item (rest.append second)

/-- What is made of a row item by item, with a gap between items, has that gap between two rows. -/
theorem Row.of_append {Item Part : Type} {ofItem : Item → List Part} {ofRow : Row Item → List Part}
    (gap : List Part) (ofLast : ∀ item, ofRow (.last item) = ofItem item)
    (ofMore : ∀ item rest, ofRow (.more item rest) = ofItem item ++ (gap ++ ofRow rest))
    (first second : Row Item) :
    ofRow (first.append second) = ofRow first ++ (gap ++ ofRow second) := by
  induction first with
  | last item => rw [Row.append, ofMore, ofLast]
  | more item rest inductionHypothesis =>
    rw [Row.append, ofMore, inductionHypothesis, ofMore, List.append_assoc, List.append_assoc]

theorem SequenceTree.lexemes_append (first second : SequenceTree) :
    SequenceTree.lexemes (first.append second) = first.lexemes ++ second.lexemes :=
  Row.of_append [] (fun _ => rfl) (fun _ _ => rfl) first second

theorem SequenceTree.items_append (first second : SequenceTree) :
    SequenceTree.items (first.append second) = first.items ++ second.items :=
  Row.of_append [] (fun _ => rfl) (fun _ _ => rfl) first second

theorem AlternationTree.lexemes_append (first second : AlternationTree) :
    AlternationTree.lexemes (first.append second) = first.lexemes ++ .bar :: second.lexemes :=
  Row.of_append [Lexeme.bar] (fun _ => rfl) (fun _ _ => rfl) first second

theorem AlternationTree.alternatives_append (first second : AlternationTree) :
    AlternationTree.alternatives (first.append second) =
      first.alternatives ++ second.alternatives :=
  Row.of_append [] (fun _ => rfl) (fun _ _ => rfl) first second

/-! ### Texts of derivations -/

/-- Whether a text is an atom that is read as a pattern. -/
def ReadsAtom (text : List Char) (pattern : Pattern) : Prop :=
  ∃ atom : AtomTree, Spells text atom.lexemes ∧ atom.value = pattern ∧
    (TermTree.quantified atom []).items = pattern.items

/-- Whether a text is a sequence that is read as items. -/
def ReadsItems (text : List Char) (items : List Pattern) : Prop :=
  ∃ sequence : SequenceTree, Spells text sequence.lexemes ∧ sequence.items = items

/-- Whether a text is an alternation that is read as alternatives. -/
def ReadsAlternatives (text : List Char) (alternatives : List Pattern) : Prop :=
  ∃ alternation : AlternationTree,
    Spells text alternation.lexemes ∧ alternation.alternatives = alternatives

theorem ReadsAtom.tests {tests : List Pattern} (notEmpty : tests ≠ [])
    (areTests : ∀ test ∈ tests, test.isTest = true)
    (onOneLine : ∀ test ∈ tests, test.isTestOnOneLine)
    (faultless : ∀ test ∈ tests, test.fault? = none) :
    ReadsAtom ('<' :: ['|'].intercalate (tests.map Pattern.testBody) ++ ['>'])
      (.anyOf tests) :=
  ⟨.tagClass _ _ (TagClass.read_tests notEmpty areTests faultless),
    Spells.tagClass (Lexeme.isClassText_tests onOneLine), rfl,
    (Pattern.items_anyOf_of_tests areTests).symm⟩

theorem ReadsAtom.group {text : List Char} {alternatives : List Pattern}
    (inner : ReadsAlternatives text alternatives) :
    ReadsAtom ('(' :: text ++ [')']) (.anyOf alternatives) := by
  obtain ⟨alternation, spells, rfl⟩ := inner
  have opened := (Spells.char .openParen rfl nofun).append spells
  exact ⟨.group alternation, opened.append (Spells.char .closeParen rfl nofun), rfl, rfl⟩

theorem ReadsAtom.items {text : List Char} {pattern : Pattern} (atom : ReadsAtom text pattern) :
    ReadsItems text pattern.items := by
  obtain ⟨atom, spells, _, isItems⟩ := atom
  refine ⟨.last (.quantified atom []), ?_, isItems⟩
  show Spells text (atom.lexemes ++ [])
  rwa [List.append_nil]

theorem ReadsAtom.repeated {text : List Char} {body : Pattern} (atom : ReadsAtom text body)
    {least : Nat} {most : Option Nat} (small : least ≤ Lexeme.boundLimit)
    (smallMost : ∀ bound ∈ most, bound ≤ Lexeme.boundLimit) :
    ReadsItems (text ++ Pattern.quantifier least most) [.repetition body least most] := by
  obtain ⟨atom, spells, rfl, _⟩ := atom
  obtain ⟨quantifier, spellsQuantifier, quantified⟩ := Spells.quantifier small smallMost
  refine ⟨.last (.quantified atom [quantifier]), spells.append spellsQuantifier, ?_⟩
  rw [← quantified]
  cases atom <;> rfl

theorem ReadsItems.append {first second : List Char} {items others : List Pattern}
    (ofFirst : ReadsItems first items) (ofSecond : ReadsItems second others) :
    ReadsItems (first ++ second) (items ++ others) := by
  obtain ⟨sequence, spells, rfl⟩ := ofFirst
  obtain ⟨other, spellsOther, rfl⟩ := ofSecond
  refine ⟨sequence.append other, ?_, SequenceTree.items_append sequence other⟩
  rw [SequenceTree.lexemes_append]
  exact spells.append spellsOther

theorem ReadsItems.alternative {text : List Char} {items : List Pattern}
    (inner : ReadsItems text items) : ReadsAlternatives text [.row items] := by
  obtain ⟨sequence, spells, rfl⟩ := inner
  exact ⟨.last sequence, spells, rfl⟩

theorem ReadsAlternatives.append {first second : List Char} {alternatives others : List Pattern}
    (ofFirst : ReadsAlternatives first alternatives) (ofSecond : ReadsAlternatives second others) :
    ReadsAlternatives (first ++ ['|'] ++ second) (alternatives ++ others) := by
  obtain ⟨alternation, spells, rfl⟩ := ofFirst
  obtain ⟨other, spellsOther, rfl⟩ := ofSecond
  refine ⟨alternation.append other, ?_, AlternationTree.alternatives_append alternation other⟩
  rw [AlternationTree.lexemes_append, List.append_assoc]
  exact spells.append ((Spells.char .bar rfl nofun).append spellsOther)

/-! ### Reading patterns again -/

namespace Pattern

/-- Whether the text of a pattern is read as that pattern read again, alone, held together and as an
item of a sequence. -/
structure IsReread (pattern : Pattern) : Prop where
  alternatives : ReadsAlternatives pattern.loose pattern.rereadAlternatives
  atom : ReadsAtom (held pattern pattern.loose) pattern.reread
  items : ReadsItems pattern.itemText pattern.reread.items

theorem isReread_of_isClass {pattern : Pattern} (isClass : pattern.isClass = true)
    (onOneLine : ∀ test ∈ pattern.classTests, test.isTestOnOneLine)
    (filled : ∀ test ∈ pattern.classTests, test.IsFilled) : pattern.IsReread := by
  obtain ⟨notEmpty, areTests⟩ := isTest_of_mem_classTests isClass
  have faultless : ∀ test ∈ pattern.classTests, test.fault? = none := fun test member =>
    (isFilled_iff_of_isTest (areTests test member)).mp (filled test member)
  have isAlternatives := rereadAlternatives_of_isClass isClass
  have isReread : pattern.reread = anyOf pattern.classTests := by
    rw [reread, isAlternatives]
    rfl
  have isHeld : held pattern pattern.loose = pattern.loose := by
    rw [held, if_pos isClass, loose_of_isClass isClass]
  have isItem : pattern.itemText = pattern.loose := by
    rw [itemText, isHeld, ite_self]
  have atom : ReadsAtom pattern.loose pattern.reread := by
    rw [loose_of_isClass isClass, classBody_eq, isReread]
    exact ReadsAtom.tests notEmpty areTests onOneLine faultless
  have alone : ReadsAlternatives pattern.loose [row pattern.reread.items] := atom.items.alternative
  refine ⟨?_, isHeld.symm ▸ atom, isItem ▸ atom.items⟩
  rw [isReread, items_anyOf_of_tests areTests] at alone
  rw [isAlternatives]
  exact alone

/-- Other patterns are held together by parentheses. -/
theorem reads_held {pattern : Pattern} (noClass : pattern.isClass = false)
    (alternatives : ReadsAlternatives pattern.loose pattern.rereadAlternatives) :
    ReadsAtom (held pattern pattern.loose) pattern.reread := by
  rw [held, if_neg (Bool.not_eq_true _ ▸ noClass)]
  exact ReadsAtom.group alternatives

theorem isReread_of_isHeldItem {pattern : Pattern} (isHeld : pattern.isHeldItem = true)
    (noClass : pattern.isClass = false)
    (alternatives : ReadsAlternatives pattern.loose pattern.rereadAlternatives) :
    pattern.IsReread := by
  have atom := reads_held noClass alternatives
  refine ⟨alternatives, atom, ?_⟩
  rw [itemText, if_pos isHeld]
  exact atom.items

mutual

/-- The text of a filled pattern is read as that pattern read again. -/
theorem isReread : (pattern : Pattern) → pattern.isWritable = true → pattern.IsFilled →
    pattern.IsReread
  | exactly tag, writable, filled =>
    isReread_of_isClass rfl
      (List.forall_mem_singleton.mpr (isTestOnOneLine_of_isWritable writable))
      (List.forall_mem_singleton.mpr filled)
  | startingWith stem, writable, filled =>
    isReread_of_isClass rfl
      (List.forall_mem_singleton.mpr (isTestOnOneLine_of_isWritable writable))
      (List.forall_mem_singleton.mpr filled)
  | alternation alternatives, writable, filled => by
    obtain ⟨notEmpty, filled⟩ := isFilled_alternation_iff.mp filled
    rw [isWritable] at writable
    cases isClass : (alternation alternatives).isClass with
    | true =>
      exact isReread_of_isClass isClass
        (fun test member => isTestOnOneLine_of_isWritable (isWritable_of_mem writable test member))
        filled
    | false =>
      refine isReread_of_isHeldItem rfl isClass ?_
      rw [loose, if_neg (Bool.not_eq_true _ ▸ isClass), rereadAlternatives,
        if_neg (Bool.not_eq_true _ ▸ isClass)]
      exact reads_any alternatives notEmpty writable filled
  | repetition body least most, writable, filled => by
    obtain ⟨small, smallMost, writable⟩ := isWritable_repetition writable
    have items : ReadsItems (repetition body least most).loose [repetition body.reread least most] :=
      (isReread body writable (isFilled_repetition_iff.mp filled)).atom.repeated small smallMost
    exact ⟨items.alternative, reads_held rfl items.alternative, items⟩
  | sequence items, writable, filled => by
    obtain ⟨notEmpty, writable⟩ := isWritable_sequence writable
    exact isReread_of_isHeldItem rfl rfl
      (reads_items items notEmpty writable (isFilled_sequence_iff.mp filled)).alternative

theorem reads_any : (alternatives : List Pattern) → alternatives ≠ [] →
    areWritable alternatives = true → (∀ alternative ∈ alternatives, alternative.IsFilled) →
    ReadsAlternatives (['|'].intercalate (looseAll alternatives)) (rereadAny alternatives)
  | [], notEmpty, _, _ => absurd rfl notEmpty
  | [alternative], _, writable, filled => by
    rw [areWritable, Bool.and_eq_true_iff] at writable
    have alone := (isReread alternative writable.1 (filled _ List.mem_cons_self)).alternatives
    rw [looseAll, looseAll, List.intercalate_singleton, rereadAny, rereadAny, List.append_nil]
    exact alone
  | alternative :: next :: others, _, writable, filled => by
    rw [areWritable, Bool.and_eq_true_iff] at writable
    obtain ⟨filledFirst, filledRest⟩ := List.forall_mem_cons.mp filled
    have first := (isReread alternative writable.1 filledFirst).alternatives
    have rest := reads_any (next :: others) (List.cons_ne_nil _ _) writable.2 filledRest
    have notLast : looseAll (next :: others) ≠ [] := List.cons_ne_nil _ _
    rw [looseAll, List.intercalate_cons_of_ne_nil notLast, rereadAny]
    exact first.append rest

theorem reads_items : (items : List Pattern) → items ≠ [] →
    areWritable items = true → (∀ item ∈ items, item.IsFilled) →
    ReadsItems (sequenceText items) (rereadItems items)
  | [], notEmpty, _, _ => absurd rfl notEmpty
  | [item], _, writable, filled => by
    rw [areWritable, Bool.and_eq_true_iff] at writable
    have alone := (isReread item writable.1 (filled _ List.mem_cons_self)).items
    rw [sequenceText, sequenceText, List.append_nil, rereadItems, rereadItems, List.append_nil]
    exact alone
  | item :: next :: others, _, writable, filled => by
    rw [areWritable, Bool.and_eq_true_iff] at writable
    obtain ⟨filledFirst, filledRest⟩ := List.forall_mem_cons.mp filled
    have first := (isReread item writable.1 filledFirst).items
    have rest := reads_items (next :: others) (List.cons_ne_nil _ _) writable.2 filledRest
    rw [sequenceText, rereadItems]
    exact first.append rest

end

end Pattern

/-! ### Rules -/

theorem Rule.toList_written (rule : Rule) :
    rule.written.toList = rule.label.toList ++ ':' :: ' ' :: '{' :: rule.pattern.loose ++ ['}'] := by
  simp [written, Pattern.written]

/-- A written rule is read as the rule with its pattern read again. -/
theorem Rule.ofText_written_of_isFilled {rule : Rule}
    (isLabel : Lexeme.isLabel rule.label.toList = true)
    (writable : rule.pattern.isWritable = true) (filled : rule.pattern.IsFilled) :
    Rule.ofText rule.written = .ok ⟨rule.label, rule.pattern.reread⟩ := by
  obtain ⟨alternation, spells, isAlternatives⟩ :=
    (Pattern.isReread rule.pattern writable filled).alternatives
  let line : LineTree := ⟨some rule.label, some alternation, rfl⟩
  have isLexed : Lexeme.ofText rule.written = .ok line.lexemes := by
    rw [Lexeme.ofText_eq_ok_iff, toList_written, Spells.rule isLabel spells, String.ofList_toList]
    rfl
  have isRead : RuleLine.ofLexemes line.lexemes = .ok line.value :=
    (RuleLine.ofLexemes_eq_ok_iff _ _).mpr ⟨line, rfl, rfl⟩
  rw [Rule.ofText, isLexed]
  show (RuleLine.ofLexemes line.lexemes).bind _ = _
  rw [isRead, Pattern.reread, ← isAlternatives]
  rfl

theorem Rule.ofText_written {rule : Rule} (isLabel : Lexeme.isLabel rule.label.toList = true)
    (writable : rule.pattern.isWritable = true) (faultless : rule.pattern.fault? = none) :
    Rule.ofText rule.written = .ok ⟨rule.label, rule.pattern.reread⟩ :=
  ofText_written_of_isFilled isLabel writable (Pattern.isFilled_of_faultless faultless)

end ShallowParse
