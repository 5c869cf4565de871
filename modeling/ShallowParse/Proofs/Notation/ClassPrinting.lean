/-
This file proves that a tag class is read as the tests it was written for. What
stands between the brackets is read in two steps, and so is what is proved: the
lexer finds the end of the class, as no character of a tag looks like it, and the
reader of classes then finds the tags, as none of their characters looks like a
bar, a blank or a wildcard.
-/

import Mathlib.Data.List.Basic
import ShallowParse.Notation.TagClass
import ShallowParse.Proofs.Notation.LexemeTexts
import ShallowParse.Proofs.Outcome

namespace ShallowParse

open Pattern

/-! ### Escaped characters -/

theorem Pattern.escaped_cons (char : Char) (tag : List Char) :
    escaped (char :: tag) =
      (if needsEscape char then ['\\', char] else [char]) ++ escaped tag :=
  List.flatMap_cons

/-- A character that is written as it is has no meaning of its own between angle brackets. -/
theorem Pattern.plain_of_not_needsEscape {char : Char} (plain : needsEscape char = false) :
    char ∉ ['\\', '<', '>', '|'] ∧ Text.isBlank char = false ∧ isMetachar char = false := by
  rw [needsEscape, Bool.or_eq_false_iff, Bool.or_eq_false_iff] at plain
  exact ⟨by simpa using plain.1.1, plain.1.2, plain.2⟩

/-! ### Finding the end of a class -/

/-- A character that is no backslash at the end and none before another character is no backslash. -/
theorem ne_backslash {char : Char} {rest : List Char} (notLast : char = '\\' → rest = [] → False)
    (notEscape : ∀ next more, char = '\\' → rest = next :: more → False) : char ≠ '\\' := by
  intro isBackslash
  cases rest with
  | nil => exact notLast isBackslash rfl
  | cons next more => exact notEscape next more isBackslash rfl

namespace Lexeme

theorem classLength_plain {char : Char} (plain : char ∉ ['\\', '<', '>', '\n'])
    (rest : List Char) : classLength (char :: rest) = classLength rest + 1 := by
  obtain ⟨noBackslash, noOther⟩ := not_or.mp (List.mem_cons.not.mp plain)
  have noEnd : ¬['<', '>', '\n'].contains char = true := by simpa using noOther
  rw [classLength]
  · exact if_neg noEnd
  · exact fun rest isBackslash _ => noBackslash isBackslash
  · exact fun next rest isBackslash _ => noBackslash isBackslash
  · exact fun isBackslash _ => noBackslash isBackslash

theorem classLength_escape {char : Char} (noBreak : char ≠ '\n') (rest : List Char) :
    classLength ('\\' :: char :: rest) = classLength rest + 2 := by
  rw [classLength]
  exact noBreak

/-- What may stand in a class is taken up to the closing bracket. -/
theorem classLength_of_isClassText {text : List Char} (isClassText : IsClassText text)
    (rest : List Char) : classLength (text ++ '>' :: rest) = text.length := by
  induction isClassText with
  | nil => simp [classLength]
  | plain isPlain _ inductionHypothesis =>
    rw [List.cons_append, classLength_plain isPlain, inductionHypothesis, List.length_cons]
  | escape noBreak _ inductionHypothesis =>
    rw [List.cons_append, List.cons_append, classLength_escape noBreak, inductionHypothesis,
      List.length_cons, List.length_cons]

/-- A class is one lexeme, which takes its body and the closing bracket. -/
theorem classStep_of_isClassText {text : List Char} (isClassText : IsClassText text)
    (rest : List Char) :
    classStep (text ++ '>' :: rest) =
      ⟨.found (.tagClass (String.ofList text)), text.length + 1⟩ := by
  rw [classStep]
  simp only [classLength_of_isClassText isClassText, List.drop_left, List.take_left]

/-- An escaped tag may stand in a class if it is on one line. -/
theorem isClassText_escaped {tag : List Char} (noBreak : '\n' ∉ tag) :
    IsClassText (escaped tag) := by
  induction tag with
  | nil => exact .nil
  | cons char tag inductionHypothesis =>
    obtain ⟨notHere, notAfter⟩ := not_or.mp (List.mem_cons.not.mp noBreak)
    rw [escaped_cons]
    cases needed : needsEscape char with
    | true => exact .escape (Ne.symm notHere) (inductionHypothesis notAfter)
    | false =>
      have isPlain : char ∉ ['\\', '<', '>', '\n'] := by
        have notSpecial := (plain_of_not_needsEscape needed).1
        simp only [List.mem_cons, List.not_mem_nil, or_false, not_or] at notSpecial ⊢
        exact ⟨notSpecial.1, notSpecial.2.1, notSpecial.2.2.1, Ne.symm notHere⟩
      exact .plain isPlain (inductionHypothesis notAfter)

end Lexeme

/-! ### Tests of one symbol -/

namespace Pattern

/-- The tests that a class is made up of. -/
def classTests : Pattern → List Pattern
  | alternation alternatives => alternatives
  | test => [test]

theorem classBody_eq (pattern : Pattern) :
    pattern.classBody = ['|'].intercalate (pattern.classTests.map testBody) := by
  cases pattern with
  | alternation alternatives => rfl
  | _ => exact List.intercalate_singleton.symm

/-- A class is written as its body between angle brackets. -/
theorem loose_of_isClass {pattern : Pattern} (isClass : pattern.isClass = true) :
    pattern.loose = '<' :: pattern.classBody ++ ['>'] := by
  cases pattern with
  | alternation alternatives => rw [loose, if_pos isClass, held, if_pos isClass]
  | repetition body least most => cases isClass
  | sequence items => cases isClass
  | _ => rfl

theorem isTest_of_mem_classTests {pattern : Pattern} (isClass : pattern.isClass = true) :
    pattern.classTests ≠ [] ∧ ∀ test ∈ pattern.classTests, test.isTest = true := by
  cases pattern with
  | exactly tag => exact ⟨List.cons_ne_nil _ _, List.forall_mem_singleton.mpr rfl⟩
  | startingWith stem => exact ⟨List.cons_ne_nil _ _, List.forall_mem_singleton.mpr rfl⟩
  | alternation alternatives =>
    rw [Pattern.isClass, Bool.and_eq_true_iff, List.all_eq_true] at isClass
    exact ⟨by simpa [classTests] using isClass.1, isClass.2⟩
  | repetition body least most => cases isClass
  | sequence items => cases isClass

/-- Whether the tag or stem of a test has no line break in it. -/
def isTestOnOneLine : Pattern → Prop
  | exactly tag => '\n' ∉ tag.toList
  | startingWith stem => '\n' ∉ stem.toList
  | _ => True

end Pattern

theorem Lexeme.isClassText_testBody {test : Pattern} (onOneLine : test.isTestOnOneLine) :
    IsClassText (testBody test) := by
  cases test with
  | exactly tag => exact isClassText_escaped onOneLine
  | startingWith stem =>
    exact (isClassText_escaped onOneLine).append (.plain (by decide) (.plain (by decide) .nil))
  | _ => exact .nil

/-- Tests on one line may stand in a class, with bars between them. -/
theorem Lexeme.isClassText_tests {tests : List Pattern}
    (onOneLine : ∀ test ∈ tests, test.isTestOnOneLine) :
    IsClassText (['|'].intercalate (tests.map testBody)) := by
  induction tests with
  | nil => exact .nil
  | cons test others inductionHypothesis =>
    obtain ⟨onFirst, onOthers⟩ := List.forall_mem_cons.mp onOneLine
    have ofFirst := isClassText_testBody onFirst
    cases others with
    | nil => rwa [List.map_singleton, List.intercalate_singleton]
    | cons next others =>
      rw [List.map_cons, List.intercalate_cons_of_ne_nil (by simp), List.append_assoc]
      exact ofFirst.append (.plain (by decide) (inductionHypothesis onOthers))

/-! ### Reading the tests -/

namespace TagClass

/-- The signs that a tag is written with. -/
def signsOf (tag : List Char) : List Sign :=
  tag.map fun char => ⟨char, needsEscape char⟩

/-- The signs that a test is written with. -/
def testSigns : Pattern → List Sign
  | .exactly tag => signsOf tag.toList
  | .startingWith stem => signsOf stem.toList ++ wildcard
  | _ => []

theorem signs?_plain {char : Char} (noBackslash : char ≠ '\\') (noBlank : Text.isBlank char = false)
    (rest : List Char) : signs? (char :: rest) = (signs? rest).map (⟨char, false⟩ :: ·) := by
  rw [signs?]
  · exact if_neg (by simp [noBlank])
  · exact fun isBackslash _ => noBackslash isBackslash
  · exact fun next rest isBackslash _ => noBackslash isBackslash

theorem signs?_escaped (tag rest : List Char) :
    signs? (escaped tag ++ rest) = (signs? rest).map (signsOf tag ++ ·) := by
  induction tag with
  | nil => exact Option.map_id'.symm
  | cons char tag inductionHypothesis =>
    rw [escaped_cons, signsOf, List.map_cons, ← signsOf]
    cases needed : needsEscape char with
    | true =>
      show signs? ('\\' :: char :: (escaped tag ++ rest)) = _
      rw [signs?, inductionHypothesis, Option.map_map]
      rfl
    | false =>
      obtain ⟨notSpecial, noBlank, _⟩ := plain_of_not_needsEscape needed
      have noBackslash : char ≠ '\\' := (not_or.mp (List.mem_cons.not.mp notSpecial)).1
      show signs? (char :: (escaped tag ++ rest)) = _
      rw [signs?_plain noBackslash noBlank, inductionHypothesis, Option.map_map]
      rfl

theorem signs?_testBody (test : Pattern) (rest : List Char) :
    signs? (testBody test ++ rest) = (signs? rest).map (testSigns test ++ ·) := by
  cases test with
  | exactly tag => exact signs?_escaped tag.toList rest
  | startingWith stem =>
    rw [testBody, List.append_assoc, signs?_escaped, List.cons_append, List.singleton_append,
      signs?_plain (by decide) (by decide), signs?_plain (by decide) (by decide), testSigns]
    cases signs? rest with
    | none => rfl
    | some signs => exact congrArg some (List.append_assoc _ wildcard signs).symm
  | _ => exact Option.map_id'.symm

/-- The signs of a class are those of its tests with bars between them. -/
theorem signs?_tests (tests : List Pattern) :
    signs? (['|'].intercalate (tests.map testBody)) =
      some ([bar].intercalate (tests.map testSigns)) := by
  induction tests with
  | nil => rfl
  | cons test others inductionHypothesis =>
    cases others with
    | nil =>
      rw [List.map_singleton, List.map_singleton, List.intercalate_singleton,
        List.intercalate_singleton, ← List.append_nil (testBody test), signs?_testBody]
      exact congrArg some (List.append_nil _)
    | cons next others =>
      have text : ['|'].intercalate ((test :: next :: others).map testBody) =
          testBody test ++ ['|'] ++ ['|'].intercalate ((next :: others).map testBody) :=
        List.intercalate_cons_cons
      have signs : [bar].intercalate ((test :: next :: others).map testSigns) =
          testSigns test ++ [bar] ++ [bar].intercalate ((next :: others).map testSigns) :=
        List.intercalate_cons_cons
      rw [text, signs, List.append_assoc, signs?_testBody, List.singleton_append,
        signs?_plain (by decide) (by decide), inductionHypothesis, List.append_assoc]
      rfl

theorem bar_notMem_signsOf (tag : List Char) : bar ∉ signsOf tag := by
  intro member
  obtain ⟨char, _, isBar⟩ := List.mem_map.mp member
  have isBarChar : char = '|' := congrArg Sign.char isBar
  have isPlain : needsEscape char = false := congrArg Sign.isEscaped isBar
  rw [isBarChar] at isPlain
  exact absurd isPlain (by decide)

theorem bar_notMem_testSigns (test : Pattern) : bar ∉ testSigns test := by
  cases test with
  | exactly tag => exact bar_notMem_signsOf tag.toList
  | startingWith stem =>
    exact List.not_mem_append (bar_notMem_signsOf stem.toList) (by decide)
  | _ => exact List.not_mem_nil

/-- Signs without a bar belong to the part that begins with them. -/
theorem parts_append {part rest first : List Sign} {others : List (List Sign)}
    (noBar : bar ∉ part) (isRest : parts rest = first :: others) :
    parts (part ++ rest) = (part ++ first) :: others := by
  induction part with
  | nil => exact isRest
  | cons sign part inductionHypothesis =>
    obtain ⟨notHere, notAfter⟩ := not_or.mp (List.mem_cons.not.mp noBar)
    rw [List.cons_append, parts, if_neg (Ne.symm notHere), inductionHypothesis notAfter]
    rfl

theorem parts_intercalate {lists : List (List Sign)} (some : lists ≠ [])
    (noBar : ∀ list ∈ lists, bar ∉ list) : parts ([bar].intercalate lists) = lists := by
  induction lists with
  | nil => exact absurd rfl some
  | cons list others inductionHypothesis =>
    obtain ⟨notHere, notAfter⟩ := List.forall_mem_cons.mp noBar
    cases others with
    | nil =>
      rw [List.intercalate_singleton, ← List.append_nil list, parts_append notHere rfl]
    | cons next others =>
      have atBar (rest : List Sign) : parts (bar :: rest) = [] :: parts rest := if_pos rfl
      rw [List.intercalate_cons_cons, List.append_assoc, List.singleton_append,
        parts_append notHere (atBar _), List.append_nil,
        inductionHypothesis (List.cons_ne_nil _ _) notAfter]

theorem tagOf_signsOf (tag : List Char) : tagOf (signsOf tag) = String.ofList tag := by
  rw [tagOf, signsOf, List.map_map]
  exact congrArg String.ofList (List.map_id' tag)

theorem find?_isUnsupported_signsOf (tag : List Char) :
    (signsOf tag).find? Sign.isUnsupported = none := by
  rw [List.find?_eq_none]
  intro sign member
  obtain ⟨char, _, rfl⟩ := List.mem_map.mp member
  cases needed : needsEscape char with
  | true => simp [Sign.isUnsupported]
  | false => simp [Sign.isUnsupported, (plain_of_not_needsEscape needed).2.2]

/-- A tag is not taken for a stem, since it has no star without a backslash. -/
theorem stem?_signsOf (tag : List Char) : stem? (signsOf tag) = none := by
  refine if_neg fun isSuffix => ?_
  have isStar : (⟨'*', false⟩ : Sign) ∈ signsOf tag :=
    (List.isSuffixOf_iff_suffix.mp isSuffix).subset (by decide)
  obtain ⟨char, _, isStar⟩ := List.mem_map.mp isStar
  have isStarChar : char = '*' := congrArg Sign.char isStar
  have isPlain : needsEscape char = false := congrArg Sign.isEscaped isStar
  rw [isStarChar] at isPlain
  exact absurd isPlain (by decide)

theorem stem?_wildcard (stem : List Sign) : stem? (stem ++ wildcard) = some stem := by
  rw [stem?, if_pos (List.isSuffixOf_iff_suffix.mpr (List.suffix_append _ _)),
    List.length_append, Nat.add_sub_cancel, List.take_left]

/-- The signs of a test are read as the test. -/
theorem alternative_testSigns (body : String) {test : Pattern} (isTest : test.isTest = true)
    (faultless : test.fault? = none) : alternative body (testSigns test) = .ok test := by
  cases test with
  | exactly tag =>
    have notEmpty : (signsOf tag.toList).isEmpty = false := by
      rw [Pattern.fault?] at faultless
      split at faultless
      · cases faultless
      · rename_i notEmpty
        simpa [signsOf] using notEmpty
    rw [alternative, testSigns, stem?_signsOf]
    simp only [Option.getD_none, find?_isUnsupported_signsOf, Option.isSome_none, notEmpty,
      Bool.false_eq_true, if_false, tagOf_signsOf, String.ofList_toList]
  | startingWith stem =>
    rw [alternative, testSigns, stem?_wildcard]
    simp only [Option.getD_some, find?_isUnsupported_signsOf, Option.isSome_some, if_true,
      tagOf_signsOf, String.ofList_toList]
  | _ => cases isTest

theorem mapM_alternative (body : String) {tests : List Pattern}
    (areTests : ∀ test ∈ tests, test.isTest = true)
    (faultless : ∀ test ∈ tests, test.fault? = none) :
    (tests.map testSigns).mapM (alternative body) = .ok tests := by
  rw [Outcome.mapM_eq_ok_iff, List.forall₂_map_left_iff, List.forall₂_same]
  exact fun test member => alternative_testSigns body (areTests test member) (faultless test member)

/-- The body of a class is read as the tests it is made up of. -/
theorem read_tests {tests : List Pattern} (some : tests ≠ [])
    (areTests : ∀ test ∈ tests, test.isTest = true)
    (faultless : ∀ test ∈ tests, test.fault? = none) :
    read (String.ofList (['|'].intercalate (tests.map testBody))) = .ok (.anyOf tests) := by
  have noBar : ∀ list ∈ tests.map testSigns, bar ∉ list := by
    intro list member
    obtain ⟨test, _, rfl⟩ := List.mem_map.mp member
    exact bar_notMem_testSigns test
  rw [read, String.toList_ofList, signs?_tests]
  simp only [parts_intercalate (fun none => some (List.map_eq_nil_iff.mp none)) noBar,
    mapM_alternative _ areTests faultless]
  rfl

end TagClass

end ShallowParse
