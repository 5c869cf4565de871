/-
This file proves that a line which can be lexed has the same lexemes without the carriage return
that may end it. No lexeme takes the carriage return up, but a comment at the end of the line
does, so there the lexer may have to take one character less.
-/

import ShallowParse.Proofs.Notation.Lexing

namespace ShallowParse

/-! ### One lexeme -/

namespace Lexeme

theorem takeWhile_append_return {isPart : Char → Bool} (isStop : isPart '\r' = false)
    (text : List Char) : (text ++ ['\r']).takeWhile isPart = text.takeWhile isPart := by
  induction text with
  | nil => exact List.takeWhile_cons_of_neg (by simp [isStop])
  | cons char text inductionHypothesis =>
    rw [List.cons_append, List.takeWhile_cons, List.takeWhile_cons, inductionHypothesis]

theorem drop_takeWhile_append_return (isPart : Char → Bool) (text : List Char) :
    (text ++ ['\r']).drop (text.takeWhile isPart).length =
      text.drop (text.takeWhile isPart).length ++ ['\r'] :=
  List.drop_append_of_le_length (List.takeWhile_sublist isPart).length_le

/-- Neither bounds nor the brace of a body reach up to the end of the line. -/
theorem braceStep_append_return (rest : List Char) : braceStep (rest ++ ['\r']) = braceStep rest := by
  have noDigit : '\r'.isDigit = false := by decide
  rw [braceStep, braceStep, takeWhile_append_return noDigit, drop_takeWhile_append_return]
  cases rest.drop (rest.takeWhile Char.isDigit).length with
  | nil => rfl
  | cons char after =>
    by_cases isClosed : char = '}'
    · rw [isClosed, List.cons_append]
      rfl
    by_cases isComma : char = ','
    · rw [isComma, List.cons_append]
      simp only [takeWhile_append_return noDigit, drop_takeWhile_append_return]
      cases after.drop (after.takeWhile Char.isDigit).length with
      | nil => rfl
      | cons char after => by_cases isClosed : char = '}' <;> simp [isClosed]
    · simp [isClosed, isComma]

theorem classLength_le (text : List Char) : classLength text ≤ text.length := by
  fun_induction classLength text <;> simp_all

theorem classLength_end {char : Char} (isEnd : ['<', '>', '\n'].contains char = true)
    (rest : List Char) : classLength (char :: rest) = 0 := by
  have noBackslash : char ≠ '\\' := by
    rintro rfl
    cases isEnd
  rw [classLength, if_pos isEnd]
  · exact fun _ isBackslash _ => noBackslash isBackslash
  · exact fun _ _ isBackslash _ => noBackslash isBackslash
  · exact fun isBackslash _ => noBackslash isBackslash

/-- A class that is closed on a line is as long without the end of the line. -/
theorem classLength_append_return {text after : List Char}
    (isClosed : (text ++ ['\r']).drop (classLength (text ++ ['\r'])) = '>' :: after) :
    classLength (text ++ ['\r']) = classLength text := by
  fun_induction classLength text with
  | case1 rest => rfl
  | case2 char rest noBreak inductionHypothesis =>
    rw [List.cons_append, List.cons_append, classLength_escape noBreak] at isClosed ⊢
    exact congrArg (· + 2) (inductionHypothesis isClosed)
  | case3 => cases isClosed
  | case4 char rest _ _ _ isEnd => exact classLength_end isEnd _
  | case5 char rest _ notEscape notLast goesOn inductionHypothesis =>
    have plain : char ∉ ['\\', '<', '>', '\n'] := by
      rw [List.mem_cons, not_or]
      exact ⟨ne_backslash notLast notEscape, by simpa using goesOn⟩
    rw [List.cons_append, classLength_plain plain] at isClosed ⊢
    exact congrArg (· + 1) (inductionHypothesis isClosed)
  | case6 => cases isClosed

/-- A class that is closed on a line is closed without the end of the line. -/
theorem classStep_append_return {rest : List Char}
    (goesOn : (classStep (rest ++ ['\r'])).start ≠ .stuck) :
    classStep (rest ++ ['\r']) = classStep rest := by
  rw [classStep] at goesOn
  split at goesOn
  · rename_i after isClosed
    have sameLength := classLength_append_return isClosed
    rw [sameLength, List.drop_append_of_le_length (classLength_le rest)] at isClosed
    cases isAfter : rest.drop (classLength rest) with
    | nil =>
      rw [isAfter] at isClosed
      cases isClosed
    | cons char after =>
      rw [isAfter] at isClosed
      obtain rfl : char = '>' := (List.cons.inj isClosed).1
      rw [classStep, classStep, sameLength, List.drop_append_of_le_length (classLength_le rest),
        List.take_append_of_le_length (classLength_le rest), isAfter]
      rfl
  · exact absurd rfl goesOn

/-- What a line begins with, unless that is a comment, does not reach up to the end of the line. -/
theorem step_append_return {first : Char} (noComment : first ≠ '#') {rest : List Char}
    (goesOn : (step first (rest ++ ['\r'])).start ≠ .stuck) :
    step first (rest ++ ['\r']) = step first rest := by
  have noLabelChar : isLabelChar '\r' = false := by decide
  rw [step.eq_def] at goesOn
  rw [step.eq_def, step.eq_def first rest]
  split <;> try rfl
  · exact absurd rfl noComment
  · exact classStep_append_return goesOn
  · exact braceStep_append_return rest
  · rw [takeWhile_append_return noLabelChar]

end Lexeme

/-! ### A whole line -/

namespace Lexing

theorem lexemesAfter_of_length_le {extra : Nat} {text : List Char} (isAll : text.length ≤ extra) :
    lexemesAfter extra text = some [] := by
  induction text generalizing extra with
  | nil => cases extra <;> rfl
  | cons char text inductionHypothesis =>
    cases extra with
    | zero => exact absurd isAll (Nat.not_succ_le_zero _)
    | succ extra => exact inductionHypothesis (Nat.le_of_succ_le_succ isAll)

/-- What is read of a line is read of it without the carriage return that ends it. -/
theorem lexemesAfter_of_append_return (extra : Nat) (text : List Char) {lexemes : List Lexeme}
    (read : lexemesAfter extra (text ++ ['\r']) = some lexemes) :
    lexemesAfter extra text = some lexemes := by
  induction text generalizing extra lexemes with
  | nil =>
    cases extra with
    | zero => exact read
    | succ extra =>
      change lexemesAfter extra [] = some lexemes at read
      rwa [lexemesAfter_of_length_le (Nat.zero_le _)] at read ⊢
  | cons char rest inductionHypothesis =>
    cases extra with
    | succ extra => exact inductionHypothesis extra read
    | zero =>
      by_cases isComment : char = '#'
      · subst isComment
        change lexemesAfter ((rest ++ ['\r']).takeWhile (· ≠ '\n')).length (rest ++ ['\r']) = _
          at read
        show lexemesAfter (rest.takeWhile (· ≠ '\n')).length rest = _
        rw [List.takeWhile_append] at read
        split at read
        · rename_i isWhole
          -- Here the comment goes on to the end of the line, and takes one character more.
          rw [lexemesAfter_of_length_le (by simp)] at read
          rw [lexemesAfter_of_length_le (Nat.le_of_eq isWhole.symm), read]
        · exact inductionHypothesis _ read
      · have sameStep (goesOn : (Lexeme.step char (rest ++ ['\r'])).start ≠ .stuck) :=
          Lexeme.step_append_return isComment goesOn
        rw [List.cons_append, lexemesAfter_cons_eq_some_iff] at read
        rw [lexemesAfter_cons_eq_some_iff]
        rcases read with ⟨isSkipped, ofRest⟩ | ⟨lexeme, others, isFound, areOthers, rfl⟩
        · have same := sameStep (by simp [isSkipped])
          rw [same] at isSkipped ofRest
          exact Or.inl ⟨isSkipped, inductionHypothesis _ ofRest⟩
        · have same := sameStep (by simp [isFound])
          rw [same] at isFound areOthers
          exact Or.inr ⟨lexeme, others, isFound, inductionHypothesis _ areOthers, rfl⟩

end Lexing

theorem Lexeme.ofText_of_append_return {line : String} {lexemes : List Lexeme}
    (read : Lexeme.ofText (line ++ "\r") = .ok lexemes) : Lexeme.ofText line = .ok lexemes := by
  rw [Lexeme.ofText_eq_ok_iff, String.toList_append] at read
  rw [Lexeme.ofText_eq_ok_iff]
  exact Lexing.lexemesAfter_of_append_return 0 line.toList read

end ShallowParse
