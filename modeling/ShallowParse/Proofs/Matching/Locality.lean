/-
This file proves which symbols the answer of a matcher at a place depends on. Those
before the place have no influence on it, and neither have those after the match.
So the text of all symbols may be written once and matched at every place, and the
symbols of a match are matched as well when they stand alone.
-/

import ShallowParse.Matcher
import ShallowParse.Proofs.Regex.Lookahead
import ShallowParse.Proofs.Symbols.Encoding

namespace ShallowParse

open SymbolText

/-! ### Beginnings of the text of symbols -/

/-- As many symbols as a beginning of their text has opening brackets cover that beginning. -/
theorem SymbolText.length_le_of_count (symbols : List String) (length : Nat)
    (within : length ≤ (written symbols).length) :
    length ≤ (written (symbols.take (((written symbols).take length).count '<'))).length := by
  induction symbols generalizing length with
  | nil =>
    rw [List.take_nil]
    exact within
  | cons symbol rest inductionHypothesis =>
    cases length with
    | zero => exact Nat.zero_le _
    | succ length =>
      rw [written_cons] at within ⊢
      rw [List.take_append, List.count_append]
      by_cases inFirst : length + 1 ≤ (Symbol.bracketed symbol).length
      · have opening : 1 ≤ ((Symbol.bracketed symbol).take (length + 1)).count '<' := by
          rw [Symbol.bracketed_eq, List.take_succ_cons, List.count_cons_self]
          exact Nat.le_add_left 1 _
        obtain ⟨more, isMore⟩ := Nat.exists_eq_add_of_le' opening
        rw [isMore, Nat.add_right_comm, List.take_succ_cons, written_cons, List.length_append]
        exact Nat.le_add_right_of_le inFirst
      · have afterFirst := Nat.le_of_not_le inFirst
        have withinRest : length + 1 - (Symbol.bracketed symbol).length ≤ (written rest).length := by
          rw [List.length_append] at within
          omega
        have ofRest := inductionHypothesis _ withinRest
        rw [List.take_of_length_le afterFirst, Symbol.count_bracketed, Nat.add_comm 1,
          List.take_succ_cons, written_cons, List.length_append]
        omega

namespace Matcher

/-! ### Before the match -/

/-- The answer at a place is the answer for the symbols from there on. -/
theorem matchAt_drop (matcher : Matcher) (symbols : List String) (index : Nat) :
    matcher.matchAt (.ofSymbols (symbols.drop index)) 0 =
      matcher.matchAt (.ofSymbols symbols) index := by
  rw [matchAt, matchAt, suffix_ofSymbols, suffix_ofSymbols, List.drop_zero]

/-- The answer is the number of opening brackets in a match, of which there is one at least. -/
theorem matchAt_eq_some_iff (matcher : Matcher) (symbols : List String) (consumed : Nat) :
    matcher.matchAt (.ofSymbols symbols) 0 = some consumed ↔
      ∃ length, matcher.regex.matchLength? (written symbols) = some length ∧
        ((written symbols).take length).count '<' = consumed ∧ consumed ≠ 0 := by
  rw [matchAt, suffix_ofSymbols, List.drop_zero]
  cases matcher.regex.matchLength? (written symbols) with
  | none => simp
  | some length =>
    simp only [Option.some.injEq, exists_eq_left']
    split
    · rename_i isZero
      simp only [reduceCtorEq, false_iff, isZero]
      rintro ⟨rfl, notZero⟩
      exact notZero rfl
    · rename_i notZero
      rw [Option.some.injEq]
      exact ⟨fun same => ⟨same, same ▸ notZero⟩, And.left⟩

/-! ### The match -/

/-- A match takes one symbol at least and none beyond the last. -/
theorem consumed_bounds {matcher : Matcher} {symbols : List String} {index consumed : Nat}
    (found : matcher.matchAt (.ofSymbols symbols) index = some consumed) :
    0 < consumed ∧ consumed ≤ (symbols.drop index).length := by
  rw [← matchAt_drop] at found
  obtain ⟨length, _, rfl, notZero⟩ := (matchAt_eq_some_iff _ _ _).mp found
  refine ⟨Nat.pos_of_ne_zero notZero, ?_⟩
  rw [← count_written]
  exact (List.take_sublist length _).count_le _

/-! ### After the match -/

/-- The symbols of a match are matched in full when they stand alone. -/
theorem matchAt_take {matcher : Matcher} {symbols : List String} {index consumed : Nat}
    (found : matcher.matchAt (.ofSymbols symbols) index = some consumed) :
    matcher.matchAt (.ofSymbols ((symbols.drop index).take consumed)) 0 = some consumed := by
  rw [← matchAt_drop] at found
  obtain ⟨length, isLength, counted, notZero⟩ := (matchAt_eq_some_iff _ _ _).mp found
  let taken := written ((symbols.drop index).take consumed)
  have isTaken : (written (symbols.drop index)).take taken.length = taken := by
    have parted : written (symbols.drop index) =
        taken ++ written ((symbols.drop index).drop consumed) := by
      rw [← written_append, List.take_append_drop]
    rw [parted, List.take_left]
  obtain ⟨left, _, sameLength⟩ := matcher.regex.exists_way_of_matchLength? _ _ isLength
  -- The match may end inside the brackets of its last symbol, but not beyond them.
  have covered : length ≤ taken.length := by
    have covers := length_le_of_count (symbols.drop index) length (by omega)
    rwa [counted] at covers
  have sameMatch := matcher.regex.matchLength?_take _ taken.length fun other isOther =>
    Option.some.inj (isLength.symm.trans isOther) ▸ covered
  rw [isTaken, isLength] at sameMatch
  refine (matchAt_eq_some_iff _ _ _).mpr ⟨length, sameMatch, ?_, notZero⟩
  show (taken.take length).count '<' = consumed
  rw [← isTaken, List.take_take, Nat.min_eq_left covered, counted]

end Matcher

end ShallowParse
