/-
This file says of which expressions a search follows the order of preference.

A search never goes on twice from one thread at one place of the text. Where a
copy of a body takes nothing, the search is back at the loop it came from and
leaves it, and what the body would have tried next comes after what follows the
loop. So a body that is repeated must prefer all that it can take to taking
nothing. Of a single optional copy this is not asked.
-/

import ShallowParse.Proofs.Matching.EmptyLast
import ShallowParse.Proofs.Regex.Ways

namespace ShallowParse.Regex

/-! ### Expressions that take something -/

/-- An expression that is not nullable takes a character in each of its ways. -/
theorem shorter_of_mem_ways (regex : Regex) (takes : regex.isNullable = false)
    (text : List Char) : ∀ rest ∈ regex.ways text, rest.length < text.length := by
  induction regex generalizing text with
  | empty => cases takes
  | char wanted => exact Ways.shorter_of_mem_single _ text
  | otherThan refused => exact Ways.shorter_of_mem_single _ text
  | seq first second ofFirst ofSecond =>
    intro rest member
    obtain ⟨middle, isMiddle, isRest⟩ := List.mem_flatMap.mp member
    have middleLe := (first.leavesSuffix_ways text middle isMiddle).length_le
    have restLe := (second.leavesSuffix_ways middle rest isRest).length_le
    rcases Bool.and_eq_false_iff.mp takes with firstTakes | secondTakes
    · exact Nat.lt_of_le_of_lt restLe (ofFirst firstTakes text middle isMiddle)
    · exact Nat.lt_of_lt_of_le (ofSecond secondTakes middle rest isRest) middleLe
  | alt first second ofFirst ofSecond =>
    intro rest member
    obtain ⟨firstTakes, secondTakes⟩ := Bool.or_eq_false_iff.mp takes
    rcases List.mem_append.mp member with isFirst | isSecond
    · exact ofFirst firstTakes text rest isFirst
    · exact ofSecond secondTakes text rest isSecond
  | star body ofBody => cases takes
  | repeated body least most ofBody =>
    intro rest member
    obtain ⟨someCopy, bodyTakes⟩ := Bool.or_eq_false_iff.mp takes
    cases least with
    | zero => cases someCopy
    | succ least =>
      rw [ways, Ways.repeated_succ] at member
      obtain ⟨middle, isMiddle, isRest⟩ := List.mem_flatMap.mp member
      have leaves := Ways.leavesSuffix_repeated body.leavesSuffix_ways least
      have restLe := (leaves _ middle rest isRest).length_le
      exact Nat.lt_of_le_of_lt restLe (ofBody bodyTakes text middle isMiddle)

/-! ### Steady expressions -/

/-- Whether all that an expression can take is preferred to taking nothing. -/
def hasEmptyLast : Regex → Bool
  | empty | char _ | otherThan _ => true
  | seq first second =>
    !(first.isNullable && second.isNullable) || first.hasEmptyLast && second.hasEmptyLast
  | alt first second => !first.isNullable && second.hasEmptyLast
  | star body => body.hasEmptyLast
  | repeated body _ _ => body.hasEmptyLast

/-- Whether every body that can have more than one optional copy prefers all that it can take to
taking nothing. -/
def isSteady : Regex → Bool
  | empty | char _ | otherThan _ => true
  | seq first second | alt first second => first.isSteady && second.isSteady
  | star body => body.isSteady && body.hasEmptyLast
  | repeated body least most =>
    body.isSteady && (most.any (· ≤ least + 1) || body.hasEmptyLast)

theorem emptyLast_ways (regex : Regex) (hasEmptyLast : regex.hasEmptyLast = true) :
    Ways.EmptyLast regex.ways := by
  induction regex with
  | empty =>
    intro text rest member shorter
    rw [List.mem_singleton.mp member] at shorter
    exact absurd shorter (Nat.lt_irrefl _)
  | char wanted => exact Ways.emptyLast_of_shorter (Ways.shorter_of_mem_single _)
  | otherThan refused => exact Ways.emptyLast_of_shorter (Ways.shorter_of_mem_single _)
  | seq first second ofFirst ofSecond =>
    rcases Bool.or_eq_true_iff.mp hasEmptyLast with takes | both
    · rw [Bool.not_eq_true'] at takes
      exact Ways.emptyLast_of_shorter (shorter_of_mem_ways (seq first second) takes)
    · obtain ⟨first', second'⟩ := Bool.and_eq_true_iff.mp both
      exact (ofFirst first').flatMap first.leavesSuffix_ways (ofSecond second')
        second.leavesSuffix_ways
  | alt first second ofFirst ofSecond =>
    obtain ⟨firstTakes, second'⟩ := Bool.and_eq_true_iff.mp hasEmptyLast
    rw [Bool.not_eq_true'] at firstTakes
    intro text rest member shorter
    have areShorter : ∀ other ∈ first.ways text, Ways.isShorter text other = true :=
      fun other isOther => decide_eq_true
        (first.shorter_of_mem_ways firstTakes text other isOther)
    show rest ∈ (first.ways text ++ second.ways text).takeWhile (Ways.isShorter text)
    rw [List.takeWhile_append_of_pos areShorter]
    exact List.mem_append.mpr ((List.mem_append.mp member).imp_right fun isSecond =>
      ofSecond second' text rest isSecond shorter)
  | star body ofBody =>
    exact Ways.emptyLast_optional (ofBody hasEmptyLast) body.leavesSuffix_ways none
  | repeated body least most ofBody =>
    exact Ways.emptyLast_repeated (ofBody hasEmptyLast) body.leavesSuffix_ways least most

end ShallowParse.Regex
