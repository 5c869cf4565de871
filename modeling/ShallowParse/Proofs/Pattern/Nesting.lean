/-
This file proves that a written pattern, read again, nests no deeper, so that it
stays within the limit of depth if the first one does.
-/

import Mathlib.Order.MinMax
import ShallowParse.Pattern.Expression
import ShallowParse.Proofs.Notation.Rereading

namespace ShallowParse.Pattern

/-! ### Depths compared -/

namespace Nesting

/-- Whether one nesting is no deeper than another, both as it is and closed. -/
def Within (inner outer : Nesting) : Prop :=
  inner.depth ≤ outer.depth ∧ inner.closedDepth ≤ outer.closedDepth

theorem Within.refl (nesting : Nesting) : nesting.Within nesting :=
  ⟨Nat.le_refl _, Nat.le_refl _⟩

theorem Within.trans {inner middle outer : Nesting} (first : inner.Within middle)
    (second : middle.Within outer) : inner.Within outer :=
  ⟨first.1.trans second.1, first.2.trans second.2⟩

theorem depth_le_closedDepth (nesting : Nesting) : nesting.depth ≤ nesting.closedDepth := by
  rw [closedDepth]
  split
  · exact Nat.le_refl _
  · exact Nat.le_succ _

theorem closedDepth_le (nesting : Nesting) : nesting.closedDepth ≤ nesting.depth + 1 := by
  rw [closedDepth]
  split
  · exact Nat.le_succ _
  · exact Nat.le_refl _

/-- A nesting is no deeper than one item of its closed depth. -/
theorem within_one (nesting : Nesting) {depth : Nat} (deep : nesting.closedDepth ≤ depth) :
    nesting.Within ⟨1, depth⟩ :=
  ⟨nesting.depth_le_closedDepth.trans deep, deep⟩

theorem one_within_one {depth depth' : Nat} (deep : depth ≤ depth') :
    Within ⟨1, depth⟩ ⟨1, depth'⟩ :=
  ⟨deep, deep⟩

/-- Runs of several items compare as their parts do. -/
theorem Within.append {inner inner' outer outer' : Nesting} (first : inner.Within outer)
    (second : inner'.Within outer') (some : 1 ≤ outer.items) (some' : 1 ≤ outer'.items) :
    (inner.append inner').Within (outer.append outer') := by
  have deep : (inner.append inner').depth ≤ (outer.append outer').depth :=
    max_le_max first.1 second.1
  have several : (outer.append outer').closedDepth = (outer.append outer').depth + 1 :=
    if_neg (by simp only [Nesting.append]; omega)
  refine ⟨deep, ?_⟩
  rw [several]
  exact (closedDepth_le _).trans (Nat.succ_le_succ deep)

theorem append_none (nesting : Nesting) : nesting.append none = nesting := by
  rw [append, none, Nat.max_zero]
  rfl

end Nesting

theorem nestingOfRun_append (before after : List Pattern) :
    nestingOfRun (before ++ after) = (nestingOfRun before).append (nestingOfRun after) := by
  induction before with
  | nil =>
    show _ = Nesting.append ⟨0, 0⟩ _
    rw [Nesting.append, Nat.zero_add, Nat.zero_max]
    rfl
  | cons pattern before inductionHypothesis =>
    rw [List.cons_append, nestingOfRun, inductionHypothesis, nestingOfRun]
    simp only [Nesting.append, Nat.add_assoc, Nat.max_assoc]

theorem deepest_append (before after : List Pattern) :
    deepest (before ++ after) = max (deepest before) (deepest after) := by
  induction before with
  | nil => exact (Nat.zero_max _).symm
  | cons pattern before inductionHypothesis =>
    rw [List.cons_append, deepest, inductionHypothesis, deepest, Nat.max_assoc]

theorem deepest_singleton (pattern : Pattern) : deepest [pattern] = pattern.nesting.closedDepth :=
  Nat.max_zero _

theorem nestingOfRun_items (pattern : Pattern) : nestingOfRun pattern.items = pattern.nesting := by
  cases pattern with
  | sequence inner => rfl
  | _ => exact Nesting.append_none _

theorem nesting_row (patterns : List Pattern) : (row patterns).nesting = nestingOfRun patterns := by
  cases patterns with
  | nil => rfl
  | cons pattern others =>
    cases others with
    | nil => exact (Nesting.append_none _).symm
    | cons next others => rfl

theorem nesting_alternation (alternatives : List Pattern) :
    (alternation alternatives).nesting =
      ⟨1, deepest alternatives + if alternatives.length ≤ 1 then 1 else 2⟩ := rfl

theorem within_nesting_alternation {nesting : Nesting} {alternatives : List Pattern}
    (deep : nesting.closedDepth ≤ deepest alternatives) :
    nesting.Within (alternation alternatives).nesting := by
  rw [nesting_alternation]
  exact Nesting.within_one _ (deep.trans (Nat.le_add_right _ _))

theorem deepest_le_closedDepth (alternatives : List Pattern) :
    deepest alternatives ≤ (alternation alternatives).nesting.closedDepth := by
  rw [nesting_alternation]
  exact Nat.le_add_right _ _

/-- Alternatives that are no deeper make an alternation that is no deeper. -/
theorem nesting_anyOf_within {alternatives others : List Pattern}
    (deep : deepest alternatives ≤ deepest others) (several : 2 ≤ others.length) :
    (anyOf alternatives).nesting.Within (alternation others).nesting := by
  have atMostTwo : (if alternatives.length ≤ 1 then 1 else 2) ≤ 2 := by split <;> decide
  have twoDeeper : (alternation alternatives).nesting.Within (alternation others).nesting := by
    rw [nesting_alternation, nesting_alternation others, if_neg (Nat.not_le_of_lt several)]
    exact Nesting.one_within_one (Nat.add_le_add deep atMostTwo)
  match alternatives with
  | [] | _ :: _ :: _ => exact twoDeeper
  | [alternative] =>
    rw [deepest_singleton] at deep
    exact within_nesting_alternation deep

/-! ### Reading again -/

theorem one_le_items_nesting : (pattern : Pattern) → pattern.isWritable = true →
    1 ≤ pattern.nesting.items
  | exactly _, _ => Nat.le_add_left 1 _
  | startingWith _, _ => Nat.le_add_left 1 _
  | alternation alternatives, _ => by rw [nesting_alternation]
  | repetition _ _ _, _ => Nat.le_refl 1
  | sequence [], writable => by cases writable
  | sequence (item :: others), writable => by
    obtain ⟨_, writable⟩ := isWritable_sequence writable
    have ofItem := one_le_items_nesting item (Bool.and_eq_true_iff.mp writable).1
    exact Nat.le_add_right_of_le ofItem

theorem one_le_items_nestingOfRun {items : List Pattern} (notEmpty : items ≠ [])
    (writable : areWritable items = true) : 1 ≤ (nestingOfRun items).items :=
  one_le_items_nesting (sequence items) (by simpa [isWritable] using ⟨notEmpty, writable⟩)

/-- Whether a pattern read again is no deeper, and its alternatives neither. -/
def IsNoDeeper (pattern : Pattern) : Prop :=
  pattern.reread.nesting.Within pattern.nesting ∧
    deepest pattern.rereadAlternatives ≤ pattern.nesting.closedDepth

theorem isNoDeeper_of_only {pattern only : Pattern} (isOnly : pattern.rereadAlternatives = [only])
    (within : only.nesting.Within pattern.nesting) : pattern.IsNoDeeper := by
  rw [IsNoDeeper, reread, isOnly, deepest_singleton]
  exact ⟨within, within.2⟩

/-- An alternation of one pattern is read as that pattern is. -/
theorem rereadAlternatives_singleton (alternative : Pattern) :
    rereadAlternatives (alternation [alternative]) = alternative.rereadAlternatives := by
  rw [rereadAlternatives]
  split
  · rename_i isClass
    have isTest := (isTest_of_mem_classTests isClass).2 alternative (List.mem_singleton_self _)
    cases alternative with
    | exactly tag => rfl
    | startingWith stem => rfl
    | _ => cases isTest
  · rw [rereadAny, rereadAny, List.append_nil]

theorem isNoDeeper_singleton {alternative : Pattern} (noDeeper : alternative.IsNoDeeper) :
    (alternation [alternative]).IsNoDeeper := by
  have deep : alternative.nesting.closedDepth ≤ deepest [alternative] :=
    (deepest_singleton alternative).symm.le
  have within : alternative.nesting.Within (alternation [alternative]).nesting :=
    within_nesting_alternation deep
  rw [IsNoDeeper, reread, rereadAlternatives_singleton]
  exact ⟨noDeeper.1.trans within, noDeeper.2.trans within.2⟩

theorem isNoDeeper_of_several {alternatives : List Pattern} (several : 2 ≤ alternatives.length)
    (deep : deepest (rereadAny alternatives) ≤ deepest alternatives) :
    (alternation alternatives).IsNoDeeper := by
  cases isClass : (alternation alternatives).isClass with
  | true =>
    exact isNoDeeper_of_only (rereadAlternatives_of_isClass isClass)
      (nesting_anyOf_within (Nat.le_refl _) several)
  | false =>
    have isAny : (alternation alternatives).rereadAlternatives = rereadAny alternatives :=
      if_neg (Bool.not_eq_true _ ▸ isClass)
    rw [IsNoDeeper, reread, isAny]
    exact ⟨nesting_anyOf_within deep several, deep.trans (deepest_le_closedDepth _)⟩

mutual

theorem isNoDeeper : (pattern : Pattern) → pattern.isWritable = true → pattern.IsNoDeeper
  | exactly _, _ => isNoDeeper_of_only rfl (.refl _)
  | startingWith _, _ => isNoDeeper_of_only rfl (.refl _)
  | alternation [], _ => ⟨.refl _, Nat.zero_le _⟩
  | alternation [alternative], writable =>
    isNoDeeper_singleton (isNoDeeper alternative (Bool.and_eq_true_iff.mp writable).1)
  | alternation (first :: second :: others), writable =>
    isNoDeeper_of_several (Nat.le_add_left 2 _)
      (deepest_reread (first :: second :: others) writable)
  | repetition body least most, writable => by
    obtain ⟨_, _, writable⟩ := isWritable_repetition writable
    have ofBody : body.reread.nesting.Within body.nesting := (isNoDeeper body writable).1
    exact isNoDeeper_of_only rfl (Nesting.one_within_one (Nat.add_le_add_right ofBody.2 2))
  | sequence items, writable => by
    obtain ⟨notEmpty, writable⟩ := isWritable_sequence writable
    refine isNoDeeper_of_only rfl ?_
    rw [nesting_row]
    exact nestingOfRun_reread items notEmpty writable

theorem deepest_reread : (patterns : List Pattern) → areWritable patterns = true →
    deepest (rereadAny patterns) ≤ deepest patterns
  | [], _ => Nat.le_refl _
  | pattern :: patterns, writable => by
    obtain ⟨writableFirst, writableRest⟩ := Bool.and_eq_true_iff.mp writable
    rw [rereadAny, deepest_append, deepest]
    exact max_le_max (isNoDeeper pattern writableFirst).2 (deepest_reread patterns writableRest)

theorem nestingOfRun_reread : (patterns : List Pattern) → patterns ≠ [] →
    areWritable patterns = true → (nestingOfRun (rereadItems patterns)).Within (nestingOfRun patterns)
  | [], notEmpty, _ => absurd rfl notEmpty
  | [pattern], _, writable => by
    obtain ⟨writable, _⟩ := Bool.and_eq_true_iff.mp writable
    show (nestingOfRun (pattern.reread.items ++ [])).Within (pattern.nesting.append .none)
    rw [List.append_nil, nestingOfRun_items, Nesting.append_none]
    exact (isNoDeeper pattern writable).1
  | pattern :: next :: others, _, writable => by
    obtain ⟨writableFirst, writableRest⟩ := Bool.and_eq_true_iff.mp writable
    have ofFirst := (isNoDeeper pattern writableFirst).1
    have ofRest := nestingOfRun_reread (next :: others) (List.cons_ne_nil _ _) writableRest
    show (nestingOfRun (pattern.reread.items ++ rereadItems (next :: others))).Within
      (pattern.nesting.append (nestingOfRun (next :: others)))
    rw [nestingOfRun_append, nestingOfRun_items]
    exact ofFirst.append ofRest (one_le_items_nesting pattern writableFirst)
      (one_le_items_nestingOfRun (List.cons_ne_nil _ _) writableRest)

end

/-- A pattern read again is no deeper. -/
theorem depth_reread {pattern : Pattern} (writable : pattern.isWritable = true) :
    pattern.reread.depth ≤ pattern.depth :=
  Nat.add_le_add_right (isNoDeeper pattern writable).1.2 2

end ShallowParse.Pattern
