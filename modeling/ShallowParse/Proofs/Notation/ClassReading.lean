/-
This file proves what the reader of tag classes can return: tests of one symbol,
or an alternation of such tests.
-/

import ShallowParse.Notation.TagClass
import ShallowParse.Proofs.Outcome

namespace ShallowParse.TagClass

/-- A list read item by item has a value for each item, and every value is read from an item. -/
theorem of_mapM_ok {Item Value Error : Type} {reader : Item → Except Error Value}
    {items : List Item} {values : List Value} (read : items.mapM reader = .ok values) :
    values.length = items.length ∧ ∀ value ∈ values, ∃ item ∈ items, reader item = .ok value := by
  obtain ⟨asMany, areRead⟩ := List.forall₂_iff_get.mp (Outcome.mapM_eq_ok_iff.mp read)
  refine ⟨asMany.symm, fun value member => ?_⟩
  obtain ⟨place, rfl⟩ := List.mem_iff_get.mp member
  have within : place.val < items.length := Nat.lt_of_lt_of_eq place.isLt asMany.symm
  exact ⟨_, List.get_mem items _, areRead place within place.isLt⟩

/-- One part of a body is read as a test against its signs, or those before its wildcard. -/
theorem test_of_alternative {body : String} {part : List Sign} {test : Pattern}
    (read : alternative body part = .ok test) :
    test = .startingWith (tagOf ((stem? part).getD part)) ∨
      test = .exactly (tagOf ((stem? part).getD part)) := by
  unfold alternative at read
  cases unsupported : ((stem? part).getD part).find? Sign.isUnsupported with
  | some sign => simp only [unsupported] at read; cases read
  | none =>
    simp only [unsupported] at read
    split at read
    · exact Or.inl (Except.ok.inj read).symm
    · split at read
      · cases read
      · exact Or.inr (Except.ok.inj read).symm

theorem isTest_of_alternative (body : String) (part : List Sign) (test : Pattern)
    (read : alternative body part = .ok test) : test.isTest = true := by
  rcases test_of_alternative read with rfl | rfl <;> rfl

/-- A body is read as the alternation of what its parts are read as. -/
theorem exists_tests_of_read {body : String} {pattern : Pattern}
    (readable : read body = .ok pattern) :
    ∃ signs tests, signs? body.toList = some signs ∧ pattern = Pattern.anyOf tests ∧
      tests.length = (parts signs).length ∧
      ∀ test ∈ tests, ∃ part ∈ parts signs, alternative body part = .ok test := by
  unfold read at readable
  cases found : signs? body.toList with
  | none => simp only [found] at readable; cases readable
  | some signs =>
    simp only [found] at readable
    obtain ⟨tests, areTests, rfl⟩ := Outcome.map_eq_ok_iff.mp readable
    exact ⟨signs, tests, rfl, rfl, of_mapM_ok areTests⟩

/-- A tag class is one item of a sequence. -/
theorem items_of_read (body : String) (pattern : Pattern) (readable : read body = .ok pattern) :
    pattern.items = [pattern] := by
  obtain ⟨_, tests, _, rfl, _, areRead⟩ := exists_tests_of_read readable
  unfold Pattern.anyOf
  split
  · obtain ⟨part, _, isRead⟩ := areRead _ List.mem_cons_self
    have isTest := isTest_of_alternative body part _ isRead
    unfold Pattern.isTest at isTest
    split at isTest
    · rfl
    · rfl
    · cases isTest
  · rfl

end ShallowParse.TagClass
