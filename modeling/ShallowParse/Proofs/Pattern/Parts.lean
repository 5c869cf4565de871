/-
This file defines the parts of a pattern, which are the pattern itself and all patterns
within it at every depth. A pattern has no fault if none of its parts has one of its
own, so what is asked of a pattern can be said of each part alone.
-/

import ShallowParse.Proofs.Pattern.Faults

namespace ShallowParse.Pattern

/-! ### Parts -/

mutual

/-- A pattern and all patterns within it, each before those within it. -/
def parts : Pattern → List Pattern
  | exactly tag => [exactly tag]
  | startingWith stem => [startingWith stem]
  | alternation alternatives => alternation alternatives :: partsOfAll alternatives
  | repetition body least most => repetition body least most :: parts body
  | sequence items => sequence items :: partsOfAll items

def partsOfAll : List Pattern → List Pattern
  | [] => []
  | pattern :: patterns => parts pattern ++ partsOfAll patterns

end

theorem forall_mem_partsOfAll {property : Pattern → Prop} {patterns : List Pattern} :
    (∀ part ∈ partsOfAll patterns, property part) ↔
      ∀ pattern ∈ patterns, ∀ part ∈ pattern.parts, property part := by
  induction patterns with
  | nil => exact ⟨fun _ => List.forall_mem_nil _, fun _ => List.forall_mem_nil _⟩
  | cons pattern patterns inductionHypothesis =>
    rw [partsOfAll, List.forall_mem_append, inductionHypothesis, List.forall_mem_cons]

/-! ### Faults -/

/-- Whether a pattern is fit for a rule by itself, whatever the patterns within it are: a tag named in
full is not empty, an alternation offers something, and the bounds of a repetition are in order and
leave room for a copy. -/
def IsFit : Pattern → Prop
  | exactly tag => tag ≠ ""
  | startingWith _ => True
  | alternation alternatives => alternatives ≠ []
  | repetition _ least most => ∀ bound ∈ most, least ≤ bound ∧ bound ≠ 0
  | sequence _ => True

theorem boundsFault?_eq_none_iff (least : Nat) (most : Option Nat) :
    boundsFault? least most = none ↔ ∀ bound ∈ most, least ≤ bound ∧ bound ≠ 0 := by
  cases most with
  | none => exact ⟨fun _ bound isBound => absurd isBound (Option.not_mem_none bound), fun _ => rfl⟩
  | some most =>
    simp only [Option.mem_some_iff, forall_eq']
    rw [boundsFault?]
    split
    · rename_i crossed
      exact iff_of_false (Option.some_ne_none _)
        fun inOrder => Nat.not_le_of_lt crossed inOrder.1
    · rename_i inOrder
      split
      · rename_i isZero
        exact iff_of_false (Option.some_ne_none _) fun noneZero => noneZero.2 isZero
      · rename_i notZero
        exact iff_of_true rfl ⟨Nat.le_of_not_lt inOrder, notZero⟩

mutual

/-- A pattern has no fault just if each of its parts is fit by itself. -/
theorem fault?_eq_none_iff : (pattern : Pattern) →
    (pattern.fault? = none ↔ ∀ part ∈ pattern.parts, part.IsFit)
  | exactly tag => by
    rw [parts, List.forall_mem_singleton, IsFit, fault?]
    split
    · rename_i isEmpty
      exact ⟨nofun, fun notEmpty => absurd (String.isEmpty_iff.mp isEmpty) notEmpty⟩
    · rename_i notEmpty
      exact ⟨fun _ isEmpty => notEmpty (String.isEmpty_iff.mpr isEmpty), fun _ => rfl⟩
  | startingWith stem => ⟨fun _ => List.forall_mem_singleton.mpr trivial, fun _ => rfl⟩
  | alternation alternatives => by
    rw [parts, List.forall_mem_cons, ← faultOfAny?_eq_none_iff alternatives, IsFit]
    refine ⟨faultless_alternatives, fun ⟨notEmpty, faultless⟩ => ?_⟩
    rw [fault?, if_neg (by simpa using notEmpty), faultless]
  | repetition body least most => by
    rw [parts, List.forall_mem_cons, ← fault?_eq_none_iff body, IsFit,
      ← boundsFault?_eq_none_iff, fault?, Option.or_eq_none_iff]
  | sequence items => by
    rw [parts, List.forall_mem_cons, ← faultOfAny?_eq_none_iff items, fault?]
    exact (and_iff_right trivial).symm

theorem faultOfAny?_eq_none_iff : (patterns : List Pattern) →
    (faultOfAny? patterns = none ↔ ∀ part ∈ partsOfAll patterns, part.IsFit)
  | [] => ⟨fun _ => List.forall_mem_nil _, fun _ => rfl⟩
  | pattern :: patterns => by
    rw [partsOfAll, List.forall_mem_append, ← fault?_eq_none_iff pattern,
      ← faultOfAny?_eq_none_iff patterns, faultOfAny?, Option.or_eq_none_iff]

end

/-! ### Filled patterns -/

/-- Whether no part of a pattern is an empty tag or an empty alternation, so that there is something
to write for each. -/
def IsFilled (pattern : Pattern) : Prop :=
  ∀ part ∈ pattern.parts, part ≠ exactly "" ∧ part ≠ alternation []

theorem IsFit.filled {part : Pattern} (isFit : part.IsFit) :
    part ≠ exactly "" ∧ part ≠ alternation [] :=
  ⟨fun same => (same ▸ isFit : IsFit (exactly "")) rfl,
    fun same => (same ▸ isFit : IsFit (alternation [])) rfl⟩

theorem isFilled_of_faultless {pattern : Pattern} (faultless : pattern.fault? = none) :
    pattern.IsFilled := fun part member =>
  ((fault?_eq_none_iff pattern).mp faultless part member).filled

theorem isFilled_alternation_iff {alternatives : List Pattern} :
    (alternation alternatives).IsFilled ↔
      alternatives ≠ [] ∧ ∀ alternative ∈ alternatives, alternative.IsFilled := by
  rw [IsFilled, parts, List.forall_mem_cons, forall_mem_partsOfAll]
  refine and_congr_left fun _ => ⟨fun filled same => filled.2 (congrArg alternation same), ?_⟩
  exact fun notEmpty => ⟨nofun, fun same => notEmpty (alternation.inj same)⟩

theorem isFilled_repetition_iff {body : Pattern} {least : Nat} {most : Option Nat} :
    (repetition body least most).IsFilled ↔ body.IsFilled := by
  rw [IsFilled, parts, List.forall_mem_cons]
  exact and_iff_right ⟨nofun, nofun⟩

theorem isFilled_sequence_iff {items : List Pattern} :
    (sequence items).IsFilled ↔ ∀ item ∈ items, item.IsFilled := by
  rw [IsFilled, parts, List.forall_mem_cons, forall_mem_partsOfAll]
  exact and_iff_right ⟨nofun, nofun⟩

end ShallowParse.Pattern
