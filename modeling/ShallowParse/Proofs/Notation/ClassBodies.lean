/-
This file proves that the body of a class tells its tests apart, whatever characters they
are of. The body that a class is written with is read as that class. And blanks in a body
count for nothing, unless a backslash escapes them: what is read there depends on the signs
of the body only, and blanks put in anywhere else leave the signs as they are.
-/

import ShallowParse.Proofs.Notation.ClassPrinting
import ShallowParse.Proofs.Notation.ClassReading

namespace ShallowParse

/-! ### Classes in full -/

namespace Pattern

/-- A test against a tag that is not empty, or against any stem. -/
inductive IsFullTest : Pattern → Prop where
  | exactly {tag : String} (notEmpty : tag ≠ "") : IsFullTest (.exactly tag)
  | startingWith (stem : String) : IsFullTest (.startingWith stem)

/-- A test, or an alternation of at least two tests, in which no tag is empty. -/
inductive IsFullClass : Pattern → Prop where
  | test {test : Pattern} (isFull : test.IsFullTest) : IsFullClass test
  | alternation {tests : List Pattern} (several : 2 ≤ tests.length)
    (areFull : ∀ test ∈ tests, test.IsFullTest) : IsFullClass (.alternation tests)

theorem IsFullTest.isTest {test : Pattern} (isFull : test.IsFullTest) : test.isTest = true := by
  cases isFull <;> rfl

theorem IsFullTest.faultless {test : Pattern} (isFull : test.IsFullTest) : test.fault? = none := by
  cases isFull with
  | exactly notEmpty => exact if_neg (by simpa using notEmpty)
  | startingWith stem => rfl

/-- A full class is made up of its tests. -/
theorem IsFullClass.tests {pattern : Pattern} (isFull : pattern.IsFullClass) :
    (∀ test ∈ pattern.classTests, test.IsFullTest) ∧ anyOf pattern.classTests = pattern ∧
      pattern.isClass = true := by
  cases isFull with
  | test isFull =>
    cases isFull with
    | exactly notEmpty => exact ⟨List.forall_mem_singleton.mpr (.exactly notEmpty), rfl, rfl⟩
    | startingWith stem => exact ⟨List.forall_mem_singleton.mpr (.startingWith stem), rfl, rfl⟩
  | @alternation tests several areFull =>
    refine ⟨areFull, ?_, ?_⟩
    · match tests, several with
      | _ :: _ :: _, _ => rfl
    · rw [isClass, Bool.and_eq_true_iff, List.all_eq_true]
      refine ⟨?_, fun test member => (areFull test member).isTest⟩
      rw [Bool.not_eq_true', List.isEmpty_eq_false_iff, ← List.length_pos_iff]
      exact Nat.lt_of_succ_lt several

end Pattern

namespace TagClass

/-! ### Signs and blanks -/

/-- The signs of a text are those of its parts if no backslash at the end of the first one escapes
what begins the second one. -/
theorem signs?_append {before after : List Char} {signs : List Sign}
    (found : signs? before = some signs) :
    signs? (before ++ after) = (signs? after).map (signs ++ ·) := by
  fun_induction signs? before generalizing signs with
  | case1 =>
    cases found
    exact Option.map_id'.symm
  | case2 => cases found
  | case3 char rest inductionHypothesis =>
    obtain ⟨others, areOthers, rfl⟩ := Option.map_eq_some_iff.mp found
    show signs? ('\\' :: char :: (rest ++ after)) = _
    rw [signs?, inductionHypothesis areOthers, Option.map_map]
    rfl
  | case4 char rest notLast notEscape isBlank inductionHypothesis =>
    have noBackslash := ne_backslash notLast notEscape
    rw [List.cons_append, signs?, if_pos isBlank, inductionHypothesis found]
    · exact fun isBackslash _ => noBackslash isBackslash
    · exact fun _ _ isBackslash _ => noBackslash isBackslash
  | case5 char rest notLast notEscape noBlank inductionHypothesis =>
    have noBackslash := ne_backslash notLast notEscape
    obtain ⟨others, areOthers, rfl⟩ := Option.map_eq_some_iff.mp found
    rw [List.cons_append, signs?_plain noBackslash (Bool.not_eq_true _ ▸ noBlank),
      inductionHypothesis areOthers, Option.map_map]
    rfl

/-- Blanks are no signs. -/
theorem signs?_blanks {blanks : List Char}
    (areBlank : ∀ char ∈ blanks, Text.isBlank char = true) : signs? blanks = some [] := by
  induction blanks with
  | nil => rfl
  | cons char rest inductionHypothesis =>
    obtain ⟨isBlank, areOthers⟩ := List.forall_mem_cons.mp areBlank
    have noBackslash : char ≠ '\\' := by
      rintro rfl
      exact absurd isBlank (by decide)
    rw [signs?, if_pos isBlank, inductionHypothesis areOthers]
    · exact fun isBackslash _ => noBackslash isBackslash
    · exact fun _ _ isBackslash _ => noBackslash isBackslash

/-- How many backslashes stand at the end of a text. -/
def backslashesAtEnd (text : List Char) : Nat :=
  (text.reverse.takeWhile (· = '\\')).length

/-- Two characters, the first of which escapes the second, change nothing about whether the number of
backslashes at the end is odd. -/
theorem backslashesAtEnd_escape (char : Char) (rest : List Char) :
    backslashesAtEnd ('\\' :: char :: rest) % 2 = backslashesAtEnd rest % 2 := by
  rw [backslashesAtEnd, backslashesAtEnd, List.reverse_cons, List.reverse_cons, List.append_assoc,
    List.takeWhile_append]
  split
  · rename_i areAll
    by_cases isBackslash : char = '\\' <;> simp [isBackslash, areAll]
  · rfl

theorem backslashesAtEnd_plain {char : Char} (noBackslash : char ≠ '\\') (rest : List Char) :
    backslashesAtEnd (char :: rest) = backslashesAtEnd rest := by
  rw [backslashesAtEnd, backslashesAtEnd, List.reverse_cons, List.takeWhile_append]
  split
  · rename_i areAll
    simp [noBackslash, areAll]
  · rfl

/-- A text has signs if the last of its backslashes does not escape what comes next. -/
theorem exists_signs_of_even {text : List Char} (isEven : backslashesAtEnd text % 2 = 0) :
    ∃ signs, signs? text = some signs := by
  fun_induction signs? text with
  | case1 => exact ⟨[], rfl⟩
  | case2 => exact absurd isEven (by decide)
  | case3 char rest inductionHypothesis =>
    rw [backslashesAtEnd_escape] at isEven
    obtain ⟨signs, found⟩ := inductionHypothesis isEven
    exact ⟨_, congrArg _ found⟩
  | case4 char rest notLast notEscape isBlank inductionHypothesis =>
    have noBackslash := ne_backslash notLast notEscape
    rw [backslashesAtEnd_plain noBackslash] at isEven
    exact inductionHypothesis isEven
  | case5 char rest notLast notEscape noBlank inductionHypothesis =>
    have noBackslash := ne_backslash notLast notEscape
    rw [backslashesAtEnd_plain noBackslash] at isEven
    obtain ⟨signs, found⟩ := inductionHypothesis isEven
    exact ⟨_, congrArg _ found⟩

/-- What a text becomes when blanks are put in, any number of times and anywhere but directly after a
backslash that escapes. Such a backslash ends a run of an odd number of backslashes. -/
inductive Spaced (text : List Char) : List Char → Prop where
  | unchanged : Spaced text text
  | more (before blanks after : List Char) (spaced : Spaced text (before ++ after))
    (areBlank : ∀ char ∈ blanks, Text.isBlank char = true)
    (notEscaped : backslashesAtEnd before % 2 = 0) : Spaced text (before ++ blanks ++ after)

/-- Blanks that are not escaped leave the signs as they are. -/
theorem Spaced.signs?_eq {text spaced : List Char} (isSpaced : Spaced text spaced) :
    signs? spaced = signs? text := by
  induction isSpaced with
  | unchanged => rfl
  | more before blanks after _ areBlank notEscaped inductionHypothesis =>
    obtain ⟨signs, found⟩ := exists_signs_of_even notEscaped
    rw [← inductionHypothesis, signs?_append found, List.append_assoc, signs?_append found,
      signs?_append (signs?_blanks areBlank)]
    exact congrArg _ Option.map_id'

/-! ### Bodies -/

/-- A body shows in nothing but the errors of its parts. -/
theorem alternative_of_other {body other : String} {part : List Sign} {test : Pattern}
    (read : alternative body part = .ok test) : alternative other part = .ok test := by
  unfold alternative at read ⊢
  cases unsupported : ((stem? part).getD part).find? Sign.isUnsupported with
  | some sign =>
    simp only [unsupported] at read
    cases read
  | none =>
    simp only [unsupported] at read ⊢
    split at read
    · rename_i hasStem
      rwa [if_pos hasStem]
    · rename_i noStem
      split at read
      · cases read
      · rename_i notEmpty
        rwa [if_neg noStem, if_neg notEmpty]

/-- A body that can be read is read as its signs say. -/
theorem read_of_signs?_eq {body other : String} {pattern : Pattern}
    (readable : read body = .ok pattern) (same : signs? other.toList = signs? body.toList) :
    read other = .ok pattern := by
  unfold read at readable ⊢
  rw [same]
  cases found : signs? body.toList with
  | none =>
    simp only [found] at readable
    cases readable
  | some signs =>
    simp only [found] at readable ⊢
    obtain ⟨tests, areTests, isPattern⟩ := Outcome.map_eq_ok_iff.mp readable
    have alike : ∀ part test, alternative body part = .ok test → alternative other part = .ok test :=
      fun _ _ => alternative_of_other
    have areRead := (Outcome.mapM_eq_ok_iff.mp areTests).imp alike
    rw [Outcome.mapM_eq_ok_iff.mpr areRead, ← isPattern]
    rfl

/-- What a class is written with between its angle brackets is read as that class. And where a body
can be read, blanks that are put in anywhere but directly after a backslash that escapes do not
change what it is read as. -/
theorem read_undoes_writing :
    (∀ pattern : Pattern, pattern.IsFullClass →
      ∃ body, pattern.written = "<" ++ body ++ ">" ∧ read body = .ok pattern) ∧
    ∀ body pattern, read body = .ok pattern →
      ∀ spaced : String, Spaced body.toList spaced.toList → read spaced = .ok pattern := by
  refine ⟨fun pattern isFull => ?_, fun body pattern readable spaced isSpaced => ?_⟩
  · obtain ⟨areFull, isPattern, isClass⟩ := isFull.tests
    refine ⟨String.ofList pattern.classBody, ?_, ?_⟩
    · rw [Pattern.written, Pattern.loose_of_isClass isClass, ← String.toList_inj]
      simp
    · rw [Pattern.classBody_eq, read_tests (Pattern.isTest_of_mem_classTests isClass).1
        (fun test member => (areFull test member).isTest)
        (fun test member => (areFull test member).faultless), isPattern]
  · exact read_of_signs?_eq readable isSpaced.signs?_eq

/-- Tags that look like wildcards, brackets and bars, and blanks in a body that has such a tag. -/
theorem read_undoes_writing_lookalikes :
    (Pattern.IsFullClass (.alternation [.exactly "a.*", .startingWith "\\", .exactly "| <"]) ∧
      ∃ body, Pattern.written (.alternation [.exactly "a.*", .startingWith "\\", .exactly "| <"]) =
          "<" ++ body ++ ">" ∧
        read body = .ok (.alternation [.exactly "a.*", .startingWith "\\", .exactly "| <"])) ∧
    (read "NN.*|\\ \\|" = .ok (.alternation [.startingWith "NN", .exactly " |"]) ∧
      Spaced "NN.*|\\ \\|".toList "NN. *|\\ \\|\n".toList ∧
      read "NN. *|\\ \\|\n" = .ok (.alternation [.startingWith "NN", .exactly " |"])) := by
  obtain ⟨undone, unchanged⟩ := read_undoes_writing
  have isFull :
      Pattern.IsFullClass (.alternation [.exactly "a.*", .startingWith "\\", .exactly "| <"]) := by
    refine .alternation (by decide) (List.forall_mem_cons.mpr ⟨.exactly (by decide), ?_⟩)
    exact List.forall_mem_cons.mpr
      ⟨.startingWith _, List.forall_mem_singleton.mpr (.exactly (by decide))⟩
  have readable : read "NN.*|\\ \\|" = .ok (.alternation [.startingWith "NN", .exactly " |"]) := by
    rfl
  have once : Spaced "NN.*|\\ \\|".toList "NN. *|\\ \\|".toList :=
    .more "NN.".toList [' '] "*|\\ \\|".toList .unchanged
      (List.forall_mem_singleton.mpr rfl) rfl
  have isSpaced : Spaced "NN.*|\\ \\|".toList "NN. *|\\ \\|\n".toList :=
    .more "NN. *|\\ \\|".toList ['\n'] [] once (List.forall_mem_singleton.mpr rfl) rfl
  exact ⟨⟨isFull, undone _ isFull⟩, readable, isSpaced, unchanged _ _ readable _ isSpaced⟩

end TagClass

end ShallowParse
