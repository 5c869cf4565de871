/-
This file proves what the lexer can make of a text. Each lexeme is written with just the
characters that it takes. So no class has a line break in it, a label is one that could be
written again, and no bounds are larger than the limit.
-/

import ShallowParse.Proofs.Notation.Lexing

namespace ShallowParse

/-! ### One lexeme -/

namespace Lexeme

/-- Whether a lexeme is as the lexer makes it: a class has no line break, a label begins and goes on
with the right characters, and numbers are within the limit. -/
def IsLexed : Lexeme → Prop
  | tagClass body => '\n' ∉ body.toList
  | label name => isLabel name.toList = true
  | bounds least most => least ≤ boundLimit ∧ ∀ bound ∈ most, bound ≤ boundLimit
  | _ => True

/-- What a class is read from may stand in a class. -/
theorem isClassText_take_classLength (text : List Char) :
    IsClassText (text.take (classLength text)) := by
  fun_induction classLength text with
  | case1 rest => exact .nil
  | case2 char rest noBreak inductionHypothesis =>
    rw [List.take_succ_cons, List.take_succ_cons]
    exact .escape noBreak inductionHypothesis
  | case3 => exact .nil
  | case4 char rest _ _ _ ends => exact .nil
  | case5 char rest _ notEscape notLast goesOn inductionHypothesis =>
    rw [List.take_succ_cons]
    refine .plain ?_ inductionHypothesis
    rw [List.mem_cons, not_or]
    exact ⟨ne_backslash notLast notEscape, by simpa using goesOn⟩
  | case6 => exact .nil

theorem hasText_of_classStep {rest : List Char} {lexeme : Lexeme}
    (found : (classStep rest).start = .found lexeme) :
    lexeme.HasText ('<' :: rest.take (classStep rest).extra) := by
  rw [classStep] at found ⊢
  split at found
  · rename_i after isClosed
    cases found
    show HasText _ ('<' :: rest.take (classLength rest + 1))
    rw [List.take_add, isClosed]
    exact .tagClass (isClassText_take_classLength rest)
  · cases found

theorem take_length_takeWhile (isPart : Char → Bool) (text : List Char) :
    text.take (text.takeWhile isPart).length = text.takeWhile isPart :=
  (List.prefix_iff_eq_take.mp (List.takeWhile_prefix isPart)).symm

theorem isDigit_of_mem_takeWhile {text : List Char} :
    ∀ char ∈ text.takeWhile Char.isDigit, char.isDigit = true :=
  List.all_eq_true.mp List.all_takeWhile

theorem hasText_of_exactBounds {digits : List Char}
    (areDigits : ∀ char ∈ digits, char.isDigit = true) {lexeme : Lexeme}
    (found : boundsOf? digits none = some lexeme) : lexeme.HasText ('{' :: digits ++ ['}']) := by
  obtain ⟨count, isCount, rfl⟩ := Option.map_eq_some_iff.mp found
  exact .exactBounds ((bound?_eq_some_iff areDigits).mp isCount)

theorem hasText_of_otherBounds {digits others : List Char}
    (areDigits : ∀ char ∈ digits, char.isDigit = true)
    (areOthers : ∀ char ∈ others, char.isDigit = true) {lexeme : Lexeme}
    (found : boundsOf? digits (some others) = some lexeme) :
    lexeme.HasText ('{' :: digits ++ ',' :: others ++ ['}']) := by
  cases others with
  | nil =>
    obtain ⟨count, isCount, rfl⟩ := Option.map_eq_some_iff.mp found
    rw [List.append_assoc]
    exact .lowerBound ((bound?_eq_some_iff areDigits).mp isCount)
  | cons char others =>
    obtain ⟨low, isLow, found⟩ := Option.bind_eq_some_iff.mp found
    obtain ⟨high, isHigh, rfl⟩ := Option.map_eq_some_iff.mp found
    exact .bothBounds ((bound?_eq_some_iff areDigits).mp isLow)
      ((bound?_eq_some_iff areOthers).mp isHigh)

theorem closedBounds_found {least : List Char} {most : Option (List Char)} {extra : Nat}
    {lexeme : Lexeme} (found : (closedBounds least most extra).start = .found lexeme) :
    boundsOf? least most = some lexeme ∧ (closedBounds least most extra).extra = extra := by
  rw [closedBounds] at found ⊢
  split at found
  · rename_i bounds isBounds
    cases found
    exact ⟨isBounds, rfl⟩
  · cases found

theorem hasText_of_braceStep {rest : List Char} {lexeme : Lexeme}
    (found : (braceStep rest).start = .found lexeme) :
    lexeme.HasText ('{' :: rest.take (braceStep rest).extra) := by
  have atDigits := take_length_takeWhile Char.isDigit
  rw [braceStep] at found ⊢
  split at found
  · rename_i noDigits
    cases found
    rw [if_pos noDigits]
    exact .char rfl
  · rename_i someDigits
    rw [if_neg someDigits]
    split at found
    · rename_i after isClosed
      obtain ⟨areBounds, isExtra⟩ := closedBounds_found found
      rw [isExtra, List.take_add, isClosed, atDigits]
      exact hasText_of_exactBounds isDigit_of_mem_takeWhile areBounds
    · rename_i afterComma isComma
      dsimp only at found
      split at found
      · rename_i after isClosed
        obtain ⟨areBounds, isExtra⟩ := closedBounds_found found
        simp only [isClosed, isExtra]
        rw [Nat.add_assoc, List.take_add, isComma, atDigits, List.take_succ_cons, List.take_add,
          isClosed, atDigits]
        have hasText :=
          hasText_of_otherBounds isDigit_of_mem_takeWhile isDigit_of_mem_takeWhile areBounds
        rwa [List.append_assoc] at hasText
      · cases found
    · cases found

/-- What a text begins with is written with the characters that it takes. -/
theorem hasText_of_step {first : Char} {rest : List Char} {lexeme : Lexeme}
    (found : (step first rest).start = .found lexeme) :
    lexeme.HasText (first :: rest.take (step first rest).extra) := by
  rw [step.eq_def] at found ⊢
  split at found
  case h_6 => exact hasText_of_classStep found
  case h_7 => exact hasText_of_braceStep found
  case h_16 =>
    split at found
    · rename_i isStart
      cases found
      rw [if_pos isStart]
      show HasText _ (first :: rest.take (rest.takeWhile isLabelChar).length)
      rw [take_length_takeWhile]
      refine .label ?_
      rw [isLabel, isStart, Bool.true_and]
      exact List.all_takeWhile
    · cases found
  all_goals
    cases found
    try exact .char rfl

/-- What is written with a text is as the lexer makes it. -/
theorem HasText.isLexed {lexeme : Lexeme} {text : List Char} (hasText : lexeme.HasText text) :
    lexeme.IsLexed := by
  cases hasText with
  | tagClass isClassText =>
    rw [IsLexed, String.toList_ofList]
    exact isClassText.noBreak
  | label isLabel => rwa [IsLexed, String.toList_ofList]
  | exactBounds isBound =>
    exact ⟨isBound.small, fun bound isMost => Option.some.inj isMost ▸ isBound.small⟩
  | lowerBound isBound => exact ⟨isBound.small, nofun⟩
  | bothBounds isLeast isMost =>
    exact ⟨isLeast.small, fun bound isBound => Option.some.inj isBound ▸ isMost.small⟩
  | char isChar =>
    cases lexeme with
    | tagClass _ => cases isChar
    | label _ => cases isChar
    | bounds _ _ => cases isChar
    | _ => trivial

theorem isLexed_of_step {first : Char} {rest : List Char} {lexeme : Lexeme}
    (found : (step first rest).start = .found lexeme) : lexeme.IsLexed :=
  (hasText_of_step found).isLexed

end Lexeme

/-! ### A whole text -/

theorem Lexing.isLexed_of_lexemesAfter (extra : Nat) (text : List Char) {lexemes : List Lexeme}
    (read : lexemesAfter extra text = some lexemes) : ∀ lexeme ∈ lexemes, lexeme.IsLexed := by
  induction text generalizing extra lexemes with
  | nil =>
    cases read
    exact List.forall_mem_nil _
  | cons char rest inductionHypothesis =>
    cases extra with
    | succ extra => exact inductionHypothesis extra read
    | zero =>
      rcases lexemesAfter_cons_eq_some_iff.mp read with
        ⟨_, ofRest⟩ | ⟨lexeme, others, isFound, areOthers, rfl⟩
      · exact inductionHypothesis _ ofRest
      · exact List.forall_mem_cons.mpr
          ⟨Lexeme.isLexed_of_step isFound, inductionHypothesis _ areOthers⟩

/-- All lexemes of a text are as the lexer makes them. -/
theorem Lexeme.isLexed_of_ofText {text : String} {lexemes : List Lexeme}
    (read : Lexeme.ofText text = .ok lexemes) : ∀ lexeme ∈ lexemes, lexeme.IsLexed :=
  Lexing.isLexed_of_lexemesAfter 0 text.toList (Lexeme.ofText_eq_ok_iff.mp read)

end ShallowParse
