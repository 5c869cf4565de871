/-
This file proves that reading a written pattern again and writing it once more gives
the same text. It holds of every pattern that comes from a text. There nothing stands
in brackets of its own that holds one pattern only, and no sequence stands directly in
a sequence. So all that a second reading changes is that alternations give up their
alternatives to alternations around them, for which no brackets are written.
-/

import ShallowParse.Proofs.Notation.Rereading

namespace ShallowParse

namespace Pattern

/-! ### Patterns without spare brackets -/

def isSequence : Pattern → Bool
  | sequence _ => true
  | _ => false

mutual

/-- Whether every alternation and every sequence holds two patterns at least, and no item of a
sequence is a sequence. -/
def isCollapsed : Pattern → Bool
  | exactly _ | startingWith _ => true
  | alternation alternatives => decide (2 ≤ alternatives.length) && areCollapsed alternatives
  | repetition body _ _ => isCollapsed body
  | sequence items =>
    decide (2 ≤ items.length) && items.all (!·.isSequence) && areCollapsed items

def areCollapsed : List Pattern → Bool
  | [] => true
  | pattern :: patterns => isCollapsed pattern && areCollapsed patterns

end

theorem isCollapsed_alternation_iff {alternatives : List Pattern} :
    (alternation alternatives).isCollapsed = true ↔
      2 ≤ alternatives.length ∧ areCollapsed alternatives = true := by
  rw [isCollapsed, Bool.and_eq_true_iff, decide_eq_true_iff]

theorem isCollapsed_sequence_iff {items : List Pattern} :
    (sequence items).isCollapsed = true ↔
      2 ≤ items.length ∧ (∀ item ∈ items, item.isSequence = false) ∧ areCollapsed items = true := by
  rw [isCollapsed, Bool.and_eq_true_iff, Bool.and_eq_true_iff, decide_eq_true_iff,
    List.all_eq_true, and_assoc]
  simp only [Bool.not_eq_true']

theorem areCollapsed_iff {patterns : List Pattern} :
    areCollapsed patterns = true ↔ ∀ pattern ∈ patterns, pattern.isCollapsed = true := by
  induction patterns with
  | nil => exact ⟨fun _ => List.forall_mem_nil _, fun _ => rfl⟩
  | cons pattern patterns inductionHypothesis =>
    rw [areCollapsed, Bool.and_eq_true_iff, inductionHypothesis, List.forall_mem_cons]

theorem anyOf_of_two_le {alternatives : List Pattern} (several : 2 ≤ alternatives.length) :
    anyOf alternatives = alternation alternatives :=
  match alternatives, several with
  | _ :: _ :: _, _ => rfl

theorem row_of_two_le {items : List Pattern} (several : 2 ≤ items.length) :
    row items = sequence items :=
  match items, several with
  | _ :: _ :: _, _ => rfl

theorem items_of_not_isSequence {pattern : Pattern} (noSequence : pattern.isSequence = false) :
    pattern.items = [pattern] := by
  cases pattern with
  | sequence items => cases noSequence
  | _ => rfl

/-! ### What a second reading makes of them -/

mutual

theorem rereadAlternatives_ne_nil : (pattern : Pattern) → pattern.isCollapsed = true →
    pattern.rereadAlternatives ≠ []
  | exactly _, _ | startingWith _, _ | repetition _ _ _, _ | sequence _, _ => List.cons_ne_nil _ _
  | alternation alternatives, collapsed => by
    obtain ⟨several, collapsed⟩ := isCollapsed_alternation_iff.mp collapsed
    rw [rereadAlternatives]
    split
    · exact List.cons_ne_nil _ _
    · have asMany := length_le_rereadAny alternatives collapsed
      exact List.ne_nil_of_length_pos (by omega)

/-- Patterns give as many alternatives as they are, or more. -/
theorem length_le_rereadAny : (patterns : List Pattern) → areCollapsed patterns = true →
    patterns.length ≤ (rereadAny patterns).length
  | [], _ => Nat.le_refl _
  | pattern :: patterns, collapsed => by
    obtain ⟨ofFirst, ofRest⟩ := Bool.and_eq_true_iff.mp collapsed
    have some := List.length_pos_of_ne_nil (rereadAlternatives_ne_nil pattern ofFirst)
    have asMany := length_le_rereadAny patterns ofRest
    rw [rereadAny, List.length_cons, List.length_append]
    omega

end

/-- A class is read again as it is. -/
theorem reread_of_isClass {pattern : Pattern} (isClass : pattern.isClass = true)
    (collapsed : pattern.isCollapsed = true) : pattern.reread = pattern := by
  rw [reread, rereadAlternatives_of_isClass isClass]
  cases pattern with
  | alternation alternatives =>
    exact anyOf_of_two_le (isCollapsed_alternation_iff.mp collapsed).1
  | repetition body least most => cases isClass
  | sequence items => cases isClass
  | _ => rfl

/-- Any other alternation is read as one of alternatives given by its own. -/
theorem reread_alternation {alternatives : List Pattern}
    (noClass : (alternation alternatives).isClass = false)
    (collapsed : (alternation alternatives).isCollapsed = true) :
    (alternation alternatives).reread = alternation (rereadAny alternatives) := by
  obtain ⟨several, collapsed⟩ := isCollapsed_alternation_iff.mp collapsed
  rw [reread, rereadAlternatives, if_neg (Bool.not_eq_true _ ▸ noClass)]
  exact anyOf_of_two_le (Nat.le_trans several (length_le_rereadAny alternatives collapsed))

theorem reread_repetition (body : Pattern) (least : Nat) (most : Option Nat) :
    (repetition body least most).reread = repetition body.reread least most := rfl

theorem isSequence_reread {pattern : Pattern} (noSequence : pattern.isSequence = false)
    (collapsed : pattern.isCollapsed = true) : pattern.reread.isSequence = false := by
  cases pattern with
  | alternation alternatives =>
    cases isClass : (alternation alternatives).isClass with
    | true => rw [reread_of_isClass isClass collapsed, noSequence]
    | false =>
      rw [reread_alternation isClass collapsed]
      rfl
  | sequence items => cases noSequence
  | _ => rfl

theorem rereadItems_eq_map {items : List Pattern}
    (noSequence : ∀ item ∈ items, item.isSequence = false) (collapsed : areCollapsed items = true) :
    rereadItems items = items.map reread := by
  induction items with
  | nil => rfl
  | cons item items inductionHypothesis =>
    obtain ⟨ofFirst, ofRest⟩ := Bool.and_eq_true_iff.mp collapsed
    obtain ⟨isNone, areNone⟩ := List.forall_mem_cons.mp noSequence
    have alone : item.reread.items = [item.reread] :=
      items_of_not_isSequence (isSequence_reread isNone ofFirst)
    rw [rereadItems, ← reread, alone, inductionHypothesis areNone ofRest]
    rfl

/-- A sequence is read as the sequence of its items read again. -/
theorem reread_sequence {items : List Pattern} (collapsed : (sequence items).isCollapsed = true) :
    (sequence items).reread = sequence (items.map reread) := by
  obtain ⟨several, noSequence, collapsed⟩ := isCollapsed_sequence_iff.mp collapsed
  show row (rereadItems items) = _
  rw [rereadItems_eq_map noSequence collapsed, row_of_two_le (by rwa [List.length_map])]

/-! ### Classes -/

theorem all_isTest_of_not_isClass {alternatives : List Pattern}
    (noClass : (alternation alternatives).isClass = false) (several : 2 ≤ alternatives.length) :
    alternatives.all isTest = false := by
  have notEmpty : alternatives.isEmpty = false :=
    List.isEmpty_eq_false_iff.mpr (List.ne_nil_of_length_pos (by omega))
  rwa [isClass, notEmpty, Bool.not_false, Bool.true_and] at noClass

mutual

/-- A pattern gives tests only if it is one. -/
theorem all_isTest_rereadAlternatives : (pattern : Pattern) → pattern.isCollapsed = true →
    pattern.rereadAlternatives.all isTest = pattern.isTest
  | exactly _, _ | startingWith _, _ | repetition _ _ _, _ => rfl
  | alternation alternatives, collapsed => by
    obtain ⟨several, areCollapsed⟩ := isCollapsed_alternation_iff.mp collapsed
    cases isClass : (alternation alternatives).isClass with
    | true =>
      rw [rereadAlternatives, if_pos isClass, anyOf_of_two_le several]
      rfl
    | false =>
      rw [rereadAlternatives, if_neg (Bool.not_eq_true _ ▸ isClass),
        all_isTest_rereadAny alternatives areCollapsed]
      exact all_isTest_of_not_isClass isClass several
  | sequence items, collapsed => by
    rw [rereadAlternatives, List.all_cons]
    have isSequence : row (rereadItems items) = sequence (items.map reread) :=
      reread_sequence collapsed
    rw [isSequence]
    rfl

theorem all_isTest_rereadAny : (patterns : List Pattern) → areCollapsed patterns = true →
    (rereadAny patterns).all isTest = patterns.all isTest
  | [], _ => rfl
  | pattern :: patterns, collapsed => by
    obtain ⟨ofFirst, ofRest⟩ := Bool.and_eq_true_iff.mp collapsed
    rw [rereadAny, List.all_append, all_isTest_rereadAlternatives pattern ofFirst,
      all_isTest_rereadAny patterns ofRest]
    rfl

end

/-- A pattern is read as a class only if it is one. -/
theorem isClass_reread {pattern : Pattern} (collapsed : pattern.isCollapsed = true) :
    pattern.reread.isClass = pattern.isClass := by
  cases isClass : pattern.isClass with
  | true => rw [reread_of_isClass isClass collapsed, isClass]
  | false =>
    cases pattern with
    | alternation alternatives =>
      obtain ⟨several, areCollapsed⟩ := isCollapsed_alternation_iff.mp collapsed
      rw [reread_alternation isClass collapsed, Pattern.isClass,
        all_isTest_rereadAny alternatives areCollapsed, all_isTest_of_not_isClass isClass several,
        Bool.and_false]
    | sequence items =>
      rw [reread_sequence collapsed]
      rfl
    | repetition body least most => rfl
    | _ => cases isClass

theorem isHeldItem_reread {pattern : Pattern} (collapsed : pattern.isCollapsed = true) :
    pattern.reread.isHeldItem = pattern.isHeldItem := by
  cases pattern with
  | alternation alternatives =>
    cases isClass : (alternation alternatives).isClass with
    | true => rw [reread_of_isClass isClass collapsed]
    | false =>
      rw [reread_alternation isClass collapsed]
      rfl
  | sequence items =>
    rw [reread_sequence collapsed]
    rfl
  | _ => rfl

/-! ### The second text -/

/-- Held together, two patterns have the same text if they have without brackets. -/
theorem held_reread {pattern : Pattern} (collapsed : pattern.isCollapsed = true)
    (sameText : pattern.reread.loose = pattern.loose) :
    held pattern.reread pattern.reread.loose = held pattern pattern.loose := by
  cases isClass : pattern.isClass with
  | true => rw [reread_of_isClass isClass collapsed]
  | false => rw [held, held, isClass_reread collapsed, isClass, sameText]; rfl

theorem looseAll_ne_nil {patterns : List Pattern} (notEmpty : patterns ≠ []) :
    looseAll patterns ≠ [] := by
  cases patterns with
  | nil => exact absurd rfl notEmpty
  | cons pattern others => exact List.cons_ne_nil _ _

/-- The texts of two rows of patterns with bars between them. -/
theorem intercalate_looseAll_append {before after : List Pattern} (someBefore : before ≠ [])
    (someAfter : after ≠ []) :
    ['|'].intercalate (looseAll (before ++ after)) =
      ['|'].intercalate (looseAll before) ++ ['|'] ++ ['|'].intercalate (looseAll after) := by
  induction before with
  | nil => exact absurd rfl someBefore
  | cons pattern others inductionHypothesis =>
    cases others with
    | nil =>
      have alone : ['|'].intercalate (looseAll [pattern]) = pattern.loose :=
        List.intercalate_singleton
      rw [alone, List.singleton_append, looseAll,
        List.intercalate_cons_of_ne_nil (looseAll_ne_nil someAfter)]
    | cons next others =>
      have some := List.cons_ne_nil next others
      rw [List.cons_append, looseAll, looseAll, List.intercalate_cons_of_ne_nil
        (looseAll_ne_nil (List.append_ne_nil_of_left_ne_nil some after)),
        inductionHypothesis some, List.intercalate_cons_of_ne_nil (looseAll_ne_nil some)]
      simp only [List.append_assoc]

mutual

/-- The text of a collapsed pattern is that of the alternatives it is read as, and of the pattern it
is read as. -/
theorem loose_rereadAlternatives : (pattern : Pattern) → pattern.isCollapsed = true →
    ['|'].intercalate (looseAll pattern.rereadAlternatives) = pattern.loose ∧
      pattern.reread.loose = pattern.loose
  | exactly _, _ | startingWith _, _ => ⟨List.intercalate_singleton, rfl⟩
  | alternation alternatives, collapsed => by
    obtain ⟨several, areCollapsed⟩ := isCollapsed_alternation_iff.mp collapsed
    cases isClass : (alternation alternatives).isClass with
    | true =>
      rw [reread_of_isClass isClass collapsed, rereadAlternatives, if_pos isClass,
        anyOf_of_two_le several]
      exact ⟨List.intercalate_singleton, rfl⟩
    | false =>
      have noClass := (isClass_reread collapsed).trans isClass
      have notEmpty : alternatives ≠ [] := List.ne_nil_of_length_pos (by omega)
      have sameTexts := loose_rereadAny alternatives notEmpty areCollapsed
      rw [reread_alternation isClass collapsed] at noClass ⊢
      rw [rereadAlternatives, loose, loose, if_neg (Bool.not_eq_true _ ▸ isClass),
        if_neg (Bool.not_eq_true _ ▸ isClass), if_neg (Bool.not_eq_true _ ▸ noClass)]
      exact ⟨sameTexts, sameTexts⟩
  | repetition body least most, collapsed => by
    have collapsedBody : body.isCollapsed = true := collapsed
    have sameBody := held_reread collapsedBody (loose_rereadAlternatives body collapsedBody).2
    have sameText :
        (repetition body least most).reread.loose = (repetition body least most).loose := by
      rw [reread_repetition, loose, sameBody, loose]
    exact ⟨List.intercalate_singleton.trans sameText, sameText⟩
  | sequence items, collapsed => by
    have sameText : (sequence items).reread.loose = (sequence items).loose := by
      rw [reread_sequence collapsed, loose, loose]
      exact sequenceText_reread items (isCollapsed_sequence_iff.mp collapsed).2.2
    exact ⟨List.intercalate_singleton.trans sameText, sameText⟩

theorem loose_rereadAny : (patterns : List Pattern) → patterns ≠ [] → areCollapsed patterns = true →
    ['|'].intercalate (looseAll (rereadAny patterns)) = ['|'].intercalate (looseAll patterns)
  | [], notEmpty, _ => absurd rfl notEmpty
  | [pattern], _, collapsed => by
    have ofFirst := loose_rereadAlternatives pattern (Bool.and_eq_true_iff.mp collapsed).1
    rw [rereadAny, rereadAny, List.append_nil, ofFirst.1, looseAll, looseAll,
      List.intercalate_singleton]
  | pattern :: next :: others, _, collapsed => by
    obtain ⟨ofFirst, ofRest⟩ := Bool.and_eq_true_iff.mp collapsed
    have some := List.cons_ne_nil next others
    have someRead : rereadAny (next :: others) ≠ [] :=
      List.ne_nil_of_length_pos
        (Nat.lt_of_lt_of_le (Nat.succ_pos _) (length_le_rereadAny (next :: others) ofRest))
    have parted : ['|'].intercalate (looseAll (pattern :: next :: others)) =
        pattern.loose ++ ['|'] ++ ['|'].intercalate (looseAll (next :: others)) :=
      List.intercalate_cons_of_ne_nil (looseAll_ne_nil some)
    -- The alternatives of one pattern join those after it, just as their texts do.
    rw [parted, rereadAny,
      intercalate_looseAll_append (rereadAlternatives_ne_nil pattern ofFirst) someRead,
      (loose_rereadAlternatives pattern ofFirst).1, loose_rereadAny (next :: others) some ofRest]

theorem sequenceText_reread : (items : List Pattern) → areCollapsed items = true →
    sequenceText (items.map reread) = sequenceText items
  | [], _ => rfl
  | item :: items, collapsed => by
    obtain ⟨ofFirst, ofRest⟩ := Bool.and_eq_true_iff.mp collapsed
    have sameText := (loose_rereadAlternatives item ofFirst).2
    rw [List.map_cons, sequenceText, sequenceText, isHeldItem_reread ofFirst,
      held_reread ofFirst sameText, sameText, sequenceText_reread items ofRest]

end

/-- A pattern without spare brackets is written as before when it has been read again. -/
theorem written_reread {pattern : Pattern} (collapsed : pattern.isCollapsed = true) :
    pattern.reread.written = pattern.written :=
  congrArg String.ofList (loose_rereadAlternatives pattern collapsed).2

end Pattern

end ShallowParse
