/-
This file proves that a repetition matches in the ways of its copies. Of a body
that takes nothing no second copy is assembled, which changes how often a way is
counted and nothing else.
-/

import ShallowParse.Proofs.Regex.Places

namespace ShallowParse

/-! ### Taking nothing -/

namespace Ways

variable {Item : Type}

/-- There is a way, and no way takes anything. -/
def TakesNothing (ways : Ways Item) : Prop :=
  ∀ items, items ∈ ways items ∧ ∀ rest ∈ ways items, rest = items

theorem takesNothing_repeated {ways : Ways Item} (takesNothing : TakesNothing ways) (least : Nat)
    (most : Option Nat) : TakesNothing (repeated ways least most) := by
  intro items
  have inCopies : items ∈ copies ways least items := by
    induction least with
    | zero => exact List.mem_singleton_self items
    | succ least inductionHypothesis =>
      exact List.mem_flatMap.mpr ⟨items, (takesNothing items).1, inductionHypothesis⟩
  have inOptional (most : Option Nat) : items ∈ optional ways most items := by
    cases most with
    | none => exact mem_endless_self ways items
    | some most => exact mem_upTo_self ways most items
  refine ⟨List.mem_flatMap.mpr ⟨items, inCopies, inOptional _⟩, ?_⟩
  have keeps : Keeps (· = items) ways := by
    rintro _ rfl rest member
    exact (takesNothing _).2 rest member
  exact keeps_repeated keeps least most items rfl

theorem TakesNothing.sameOrder {ways ways' : Ways Item} (takesNothing : TakesNothing ways)
    (takesNothing' : TakesNothing ways') (items : List Item) :
    SameOrder (ways items) (ways' items) :=
  SameOrder.of_only (takesNothing items).2 (takesNothing' items).2
    (List.ne_nil_of_mem (takesNothing items).1) (List.ne_nil_of_mem (takesNothing' items).1)

end Ways

namespace Regex

open Place

theorem Moves.takesNothing {source target : Place} {regex : Regex}
    (moves : Moves source regex target) (matchesOnlyEmpty : regex.matchesOnlyEmpty = true) :
    Ways.TakesNothing regex.ways := by
  induction moves with
  | empty place =>
    exact fun text => ⟨List.mem_singleton_self text, fun rest => List.mem_singleton.mp⟩
  | opening => cases matchesOnlyEmpty
  | letter taken noClosing => cases matchesOnlyEmpty
  | closing taken => cases matchesOnlyEmpty
  | closingTail => cases matchesOnlyEmpty
  | others taken => cases matchesOnlyEmpty
  | seq ofFirst ofSecond inFirst inSecond =>
    obtain ⟨first, second⟩ := Bool.and_eq_true_iff.mp matchesOnlyEmpty
    intro text
    refine ⟨List.mem_flatMap.mpr ⟨text, (inFirst first text).1, (inSecond second text).1⟩, ?_⟩
    intro rest member
    obtain ⟨middle, isMiddle, isRest⟩ := List.mem_flatMap.mp member
    obtain rfl := (inFirst first text).2 middle isMiddle
    exact (inSecond second middle).2 rest isRest
  | alt ofFirst ofSecond inFirst inSecond =>
    obtain ⟨first, second⟩ := Bool.and_eq_true_iff.mp matchesOnlyEmpty
    intro text
    exact ⟨List.mem_append_left _ (inFirst first text).1,
      List.forall_mem_append.mpr ⟨(inFirst first text).2, (inSecond second text).2⟩⟩
  | @star body ofBody inBody =>
    have same : (Regex.star body).ways = Ways.repeated body.ways 0 none :=
      (Ways.repeated_zero body.ways none).symm
    rw [same]
    exact Ways.takesNothing_repeated (inBody matchesOnlyEmpty) 0 none
  | @repeated body least most copies ofBody inBody =>
    refine Ways.takesNothing_repeated (inBody ?_) least most
    have someCopy : (most == some 0) = false := beq_eq_false_iff_ne.mpr copies
    simpa [Regex.matchesOnlyEmpty, someCopy] using matchesOnlyEmpty

/-! ### Assembling a repetition -/

/-- Copies of a body between bounds, which may be one copy, none or a loop. -/
def copiesOf (body : Regex) (least : Nat) (most : Option Nat) : Regex :=
  if least = 0 ∧ most = some 0 then empty
  else if least = 1 ∧ most = some 1 then body
  else if least = 0 ∧ most = none ∧ !body.isNullable then star body
  else repeated body least most

theorem repetition_eq (body : Regex) (least : Nat) (most : Option Nat) :
    repetition body least most =
      if body.matchesOnlyEmpty then copiesOf body (min least 1) (some (min (most.getD 1) 1))
      else copiesOf body least most := by
  unfold repetition
  cases body.matchesOnlyEmpty <;> rfl

theorem ways_copiesOf (body : Regex) (least : Nat) (most : Option Nat) (text : List Char) :
    (copiesOf body least most).ways text = Ways.repeated body.ways least most text := by
  unfold copiesOf
  split
  · rename_i noCopy
    rw [noCopy.1, noCopy.2, Ways.repeated_zero]
    rfl
  · split
    · rename_i oneCopy
      rw [oneCopy.1, oneCopy.2, Ways.repeated_succ, Option.map_some, Ways.repeated_zero]
      exact (List.flatMap_singleton' _).symm
    · split
      · rename_i isLoop
        rw [isLoop.1, isLoop.2.1, Ways.repeated_zero]
        rfl
      · rfl

theorem moves_copiesOf {body : Regex} (moves : Moves outside body outside) (least : Nat)
    {most : Option Nat} (copies : most ≠ some 0) :
    Moves outside (copiesOf body least most) outside := by
  unfold copiesOf
  split
  · exact Moves.empty outside
  · split
    · exact moves
    · split
      · exact moves.star
      · exact moves.repeated least copies

/-- A repetition matches in the ways of copies of its body. -/
theorem ways_repetition {body : Regex} (moves : Moves outside body outside) (least : Nat)
    (most : Option Nat) (text : List Char) :
    Ways.SameOrder ((repetition body least most).ways text)
      (Ways.repeated body.ways least most text) := by
  rw [repetition_eq]
  split
  · rename_i onlyEmpty
    have takesNothing := moves.takesNothing onlyEmpty
    rw [ways_copiesOf]
    exact (Ways.takesNothing_repeated takesNothing _ _).sameOrder
      (Ways.takesNothing_repeated takesNothing _ _) text
  · rw [ways_copiesOf]
    exact Ways.SameOrder.refl _

theorem moves_repetition {body : Regex} (moves : Moves outside body outside) (least : Nat)
    {most : Option Nat} (copies : most ≠ some 0) :
    Moves outside (repetition body least most) outside := by
  rw [repetition_eq]
  split
  · refine moves_copiesOf moves _ fun isZero => ?_
    cases most with
    | none => cases isZero
    | some most =>
      have isZero : min most 1 = 0 := Option.some.inj isZero
      exact copies (congrArg some (by omega))
  · exact moves_copiesOf moves least copies

end Regex

end ShallowParse
