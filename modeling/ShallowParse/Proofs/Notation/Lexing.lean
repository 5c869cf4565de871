/-
This file proves which lexemes written texts spell. Punctuation, tag classes and
quantifiers spell one each, since each shows by itself where it ends. A label does
not, as it goes on with what comes after it, and a brace may open bounds.
-/

import ShallowParse.Notation.Rules
import ShallowParse.Proofs.Notation.ClassPrinting
import ShallowParse.Proofs.Notation.Derivation
import ShallowParse.Proofs.Text.Digits
import ShallowParse.Proofs.Text.Spelling
import ShallowParse.Proofs.Text.Stretches

namespace ShallowParse

/-! ### Lexemes without their places -/

namespace Lexing

/-- The lexemes of a text, if it can be read to its end, when the next `extra` characters still
belong to the last lexeme. -/
def lexemesAfter : Nat → List Char → Option (List Lexeme)
  | _, [] => some []
  | extra + 1, _ :: rest => lexemesAfter extra rest
  | 0, char :: rest =>
    let step := Lexeme.step char rest
    match step.start with
    | .skipped => lexemesAfter step.extra rest
    | .found lexeme => (lexemesAfter step.extra rest).map (lexeme :: ·)
    | .stuck => none

/-- A text can be read if what it begins with is passed over or found, and the rest can be read. -/
theorem lexemesAfter_cons_eq_some_iff {char : Char} {rest : List Char} {lexemes : List Lexeme} :
    lexemesAfter 0 (char :: rest) = some lexemes ↔
      ((Lexeme.step char rest).start = .skipped ∧
        lexemesAfter (Lexeme.step char rest).extra rest = some lexemes) ∨
      ∃ lexeme others, (Lexeme.step char rest).start = .found lexeme ∧
        lexemesAfter (Lexeme.step char rest).extra rest = some others ∧
        lexemes = lexeme :: others := by
  rw [lexemesAfter]
  cases (Lexeme.step char rest).start with
  | skipped => simp
  | found lexeme =>
    constructor
    · intro read
      obtain ⟨others, ofRest, rfl⟩ := Option.map_eq_some_iff.mp read
      exact Or.inr ⟨lexeme, others, rfl, ofRest, rfl⟩
    · rintro (⟨isSkipped, _⟩ | ⟨_, others, isFound, ofRest, rfl⟩)
      · cases isSkipped
      · cases isFound
        exact Option.map_eq_some_iff.mpr ⟨others, ofRest, rfl⟩
  | stuck => simp

/-- The lexemes that were found, if nothing is stuck. -/
def lexemes? (lexing : Lexing) : Option (List Lexeme) :=
  if lexing.stuck.isSome then none else some (lexing.found.map Placed.value)

theorem lexemes?_cons (lexeme : Placed Lexeme) (lexing : Lexing) :
    (lexing.cons lexeme).lexemes? = lexing.lexemes?.map (lexeme.value :: ·) := by
  obtain ⟨found, stuck⟩ := lexing
  cases stuck <;> rfl

/-- Where the lexemes stand has no influence on what they are. -/
theorem lexemes?_ofChars (extra offset : Nat) (text : List Char) :
    (ofChars extra offset text).lexemes? = lexemesAfter extra text := by
  induction text generalizing extra offset with
  | nil => cases extra <;> rfl
  | cons char rest inductionHypothesis =>
    cases extra with
    | succ extra => exact inductionHypothesis extra _
    | zero =>
      rw [ofChars, lexemesAfter]
      cases (Lexeme.step char rest).start with
      | skipped => exact inductionHypothesis _ _
      | found lexeme =>
        show (cons _ _).lexemes? = _
        rw [lexemes?_cons, inductionHypothesis]
      | stuck => rfl

theorem passesOver_lexemesAfter : Text.PassesOver lexemesAfter := fun _ _ _ => rfl

end Lexing

open Lexing

theorem Lexeme.ofText_eq_ok_iff {text : String} {lexemes : List Lexeme} :
    Lexeme.ofText text = .ok lexemes ↔ lexemesAfter 0 text.toList = some lexemes := by
  rw [← lexemes?_ofChars 0 0, lexemes?, Lexeme.ofText, Lexing.ofText]
  cases (ofChars 0 0 text.toList).stuck with
  | some place => exact ⟨nofun, nofun⟩
  | none => exact ⟨fun same => congrArg some (Except.ok.inj same),
      fun same => congrArg Except.ok (Option.some.inj same)⟩

/-! ### Spelling -/

/-- Whether a text is cut into these lexemes, whatever comes after it. -/
abbrev Spells (text : List Char) (lexemes : List Lexeme) : Prop :=
  Text.Spells lexemesAfter text lexemes

namespace Spells

theorem of_step {first : Char} {more : List Char} {lexeme : Lexeme}
    (step : ∀ rest, Lexeme.step first (more ++ rest) = ⟨.found lexeme, more.length⟩) :
    Spells (first :: more) [lexeme] := by
  refine .cons passesOver_lexemesAfter fun rest => ?_
  rw [lexemesAfter, step]
  rfl

/-- A lexeme of one character is spelled by it, but for the opening brace, which may also open
bounds. -/
theorem char (lexeme : Lexeme) {char : Char} (isChar : lexeme.char? = some char)
    (noBrace : lexeme ≠ .openBrace) : Spells [char] [lexeme] := by
  cases lexeme with
  | openBrace => exact absurd rfl noBrace
  | tagClass _ | label _ | bounds _ _ => cases isChar
  | _ =>
    cases isChar
    exact of_step fun _ => rfl

/-- A class spells one lexeme. -/
theorem tagClass {body : List Char} (isClassText : Lexeme.IsClassText body) :
    Spells ('<' :: body ++ ['>']) [.tagClass (String.ofList body)] := by
  show Spells ('<' :: (body ++ ['>'])) _
  refine of_step fun rest => ?_
  rw [List.append_assoc, List.singleton_append]
  show Lexeme.classStep _ = _
  rw [Lexeme.classStep_of_isClassText isClassText, List.length_append, List.length_singleton]

end Spells

/-! ### Quantifiers -/

namespace Lexeme

/-! What a brace opens and another one closes is found if it stands for bounds. -/

theorem closedBounds_eq {least : List Char} {most : Option (List Char)} {lexeme : Lexeme}
    (found : boundsOf? least most = some lexeme) (extra : Nat) :
    closedBounds least most extra = ⟨.found lexeme, extra⟩ := by
  rw [closedBounds, found]

theorem braceStep_one {digits : List Char} (notEmpty : digits ≠ [])
    (areDigits : ∀ char ∈ digits, char.isDigit = true) (rest : List Char) :
    braceStep (digits ++ '}' :: rest) = closedBounds digits none (digits.length + 1) := by
  have ends : (digits ++ '}' :: rest).takeWhile Char.isDigit = digits :=
    Text.takeWhile_append_of_ends areDigits (by rintro _ ⟨⟩; rfl)
  rw [braceStep]
  simp only [ends, List.isEmpty_eq_false_iff.mpr notEmpty, Bool.false_eq_true, if_false,
    List.drop_left]

/-- The upper bound may be missing. -/
theorem braceStep_two {digits others : List Char} (notEmpty : digits ≠ [])
    (areDigits : ∀ char ∈ digits, char.isDigit = true)
    (othersAre : ∀ char ∈ others, char.isDigit = true) (rest : List Char) :
    braceStep (digits ++ ',' :: (others ++ '}' :: rest)) =
      closedBounds digits (some others) (digits.length + others.length + 2) := by
  have ends : (digits ++ ',' :: (others ++ '}' :: rest)).takeWhile Char.isDigit = digits :=
    Text.takeWhile_append_of_ends areDigits (by rintro _ ⟨⟩; rfl)
  have endsMost : (others ++ '}' :: rest).takeWhile Char.isDigit = others :=
    Text.takeWhile_append_of_ends othersAre (by rintro _ ⟨⟩; rfl)
  rw [braceStep]
  simp only [ends, endsMost, List.isEmpty_eq_false_iff.mpr notEmpty, Bool.false_eq_true, if_false,
    List.drop_left]

theorem IsBound.bound?_eq {digits : List Char} {count : Nat} (isBound : IsBound digits count) :
    bound? digits = some count :=
  (bound?_eq_some_iff isBound.areDigits).mpr isBound

end Lexeme

namespace Spells

variable {digits others : List Char} {least most count : Nat}

/-- Two numbers with a comma between them spell bounds, and so does one with a comma after it. -/
theorem commaBounds (isLeast : Lexeme.IsBound digits least)
    (othersAre : ∀ char ∈ others, char.isDigit = true) {lexeme : Lexeme}
    (found : Lexeme.boundsOf? digits (some others) = some lexeme) :
    Spells ('{' :: digits ++ ',' :: others ++ ['}']) [lexeme] := by
  show Spells ('{' :: (digits ++ ',' :: others ++ ['}'])) _
  refine of_step fun rest => ?_
  have length : (digits ++ ',' :: others ++ ['}']).length = digits.length + others.length + 2 := by
    simp only [List.length_append, List.length_cons, List.length_nil]
    omega
  rw [length, List.append_assoc, List.append_assoc, ← Lexeme.closedBounds_eq found]
  exact Lexeme.braceStep_two isLeast.notEmpty isLeast.areDigits othersAre rest

theorem exactBounds (isBound : Lexeme.IsBound digits count) :
    Spells ('{' :: digits ++ ['}']) [.bounds count (some count)] := by
  have found : Lexeme.boundsOf? digits none = some (.bounds count (some count)) := by
    rw [Lexeme.boundsOf?, isBound.bound?_eq]
    rfl
  show Spells ('{' :: (digits ++ ['}'])) _
  refine of_step fun rest => ?_
  rw [List.append_assoc, List.length_append, ← Lexeme.closedBounds_eq found]
  exact Lexeme.braceStep_one isBound.notEmpty isBound.areDigits rest

theorem lowerBound (isBound : Lexeme.IsBound digits least) :
    Spells ('{' :: digits ++ [',', '}']) [.bounds least none] := by
  have found : Lexeme.boundsOf? digits (some []) = some (.bounds least none) := by
    rw [Lexeme.boundsOf?, isBound.bound?_eq]
    rfl
  have spells := commaBounds isBound (List.forall_mem_nil _) found
  rwa [List.append_assoc] at spells

theorem bothBounds (isLeast : Lexeme.IsBound digits least) (isMost : Lexeme.IsBound others most) :
    Spells ('{' :: digits ++ ',' :: others ++ ['}']) [.bounds least (some most)] := by
  refine commaBounds isLeast isMost.areDigits ?_
  rw [Lexeme.boundsOf?, isLeast.bound?_eq, isMost.bound?_eq]
  · rfl
  · exact isMost.notEmpty

/-- The shortest spelling of bounds is one quantifier, which stands for these bounds. -/
theorem quantifier {least : Nat} {most : Option Nat} (small : least ≤ Lexeme.boundLimit)
    (smallMost : ∀ bound ∈ most, bound ≤ Lexeme.boundLimit) :
    ∃ quantifier : Quantifier,
      Spells (Pattern.quantifier least most) [quantifier.lexeme] ∧
        ∀ body, quantifier.quantified body = .repetition body least most := by
  cases most with
  | none =>
    rw [Pattern.quantifier]
    split
    · rename_i isZero
      exact ⟨.star, char .star rfl nofun, fun _ => isZero ▸ rfl⟩
    · split
      · rename_i isOne
        exact ⟨.plus, char .plus rfl nofun, fun _ => isOne ▸ rfl⟩
      · exact ⟨.bounds least none, lowerBound (Lexeme.isBound_digits small), fun _ => rfl⟩
  | some most =>
    rw [Pattern.quantifier]
    split
    · rename_i isOptional
      exact ⟨.question, char .question rfl nofun, fun _ => by rw [isOptional.1, isOptional.2]; rfl⟩
    · split
      · rename_i isExact
        exact ⟨.bounds least (some least), exactBounds (Lexeme.isBound_digits small),
          fun _ => isExact ▸ rfl⟩
      · exact ⟨.bounds least (some most), bothBounds (Lexeme.isBound_digits small)
          (Lexeme.isBound_digits (smallMost most rfl)), fun _ => rfl⟩

end Spells

/-! ### Rules -/

namespace Lexeme

theorem not_isDigit_of_isLabelStart {char : Char} (isStart : isLabelStart char = true) :
    char.isDigit = false := by
  rw [Bool.eq_false_iff, ne_eq, Char.isDigit_iff_toNat]
  rintro ⟨_, isDigit⟩
  rcases Bool.or_eq_true_iff.mp isStart with isAlpha | isUnderscore
  · have isLetter : 'A'.toNat ≤ char.toNat := by
      rcases Bool.or_eq_true_iff.mp isAlpha with isUpper | isLower
      · exact (of_decide_eq_true isUpper).1
      · have atLeast : 'a'.toNat ≤ char.toNat :=
          of_decide_eq_true (Bool.and_eq_true_iff.mp isLower).1
        exact Nat.le_trans (by decide) atLeast
    exact absurd (Nat.le_trans isLetter isDigit) (by decide)
  · cases of_decide_eq_true isUnderscore
    exact absurd isDigit (by decide)

/-- Digits begin no lexeme. -/
theorem step_digit {digit : Char} (isDigit : digit.isDigit = true) (rest : List Char) :
    (step digit rest).start = .stuck := by
  have noLabel : ¬isLabelStart digit = true := fun isStart =>
    Bool.false_ne_true ((not_isDigit_of_isLabelStart isStart).symm.trans isDigit)
  rw [step, if_neg noLabel]
  all_goals
    rintro rfl
    cases isDigit

/-- A label ends before a character that cannot stand in one. -/
theorem step_label {first : Char} {more : List Char} (isStart : isLabelStart first = true)
    (areMore : more.all isLabelChar = true) {rest : List Char}
    (ends : ∀ char ∈ rest.head?, isLabelChar char = false) :
    step first (more ++ rest) =
      ⟨.found (.label (String.ofList (first :: more))), more.length⟩ := by
  have isAll : (more ++ rest).takeWhile isLabelChar = more :=
    Text.takeWhile_append_of_ends (List.all_eq_true.mp areMore) ends
  rw [step, if_pos isStart]
  · simp only [isAll]
  all_goals
    rintro rfl
    cases isStart

/-- A brace opens the body of a rule unless a digit follows. -/
theorem lexemesAfter_openBrace {rest : List Char}
    (noDigit : ∀ char ∈ rest.head?, char.isDigit = false) :
    lexemesAfter 0 ('{' :: rest) = (lexemesAfter 0 rest).map (.openBrace :: ·) := by
  have noDigits : rest.takeWhile Char.isDigit = [] :=
    Text.takeWhile_append_of_ends (List.forall_mem_nil _) noDigit
  have step : step '{' rest = ⟨.found .openBrace, 0⟩ := by
    show braceStep _ = _
    rw [braceStep]
    simp only [noDigits, List.isEmpty_nil, if_true]
  rw [lexemesAfter, step]

/-- A lexeme is read from its text before what cannot make it longer. -/
theorem HasText.lexemesAfter_append {lexeme : Lexeme} {text : List Char}
    (hasText : lexeme.HasText text) {rest : List Char}
    (ends : ∀ char ∈ rest.head?, isLabelChar char = false) :
    lexemesAfter 0 (text ++ rest) = (lexemesAfter 0 rest).map (lexeme :: ·) := by
  cases hasText with
  | tagClass isClassText => exact Spells.tagClass isClassText rest
  | label isLabel =>
    cases text with
    | nil => cases isLabel
    | cons first more =>
      obtain ⟨isStart, areMore⟩ := Bool.and_eq_true_iff.mp isLabel
      rw [List.cons_append, lexemesAfter, step_label isStart areMore ends,
        passesOver_lexemesAfter.append]
  | exactBounds isBound => exact Spells.exactBounds isBound rest
  | lowerBound isBound => exact Spells.lowerBound isBound rest
  | bothBounds isLeast isMost => exact Spells.bothBounds isLeast isMost rest
  | char isChar =>
    by_cases isBrace : lexeme = .openBrace
    · subst isBrace
      cases isChar
      refine lexemesAfter_openBrace fun char isFirst => ?_
      have noLabelChar := ends char isFirst
      simp only [isLabelChar, Char.isAlphanum, Bool.or_eq_false_iff] at noLabelChar
      exact noLabelChar.1.1.2
    · exact Spells.char lexeme isChar isBrace rest

end Lexeme

namespace Spells

/-- A brace before a text that spells lexemes opens the body of a rule, since the text does not
begin with a digit. -/
theorem openBrace {text : List Char} {lexemes : List Lexeme} (spells : Spells text lexemes)
    (rest : List Char) :
    lexemesAfter 0 ('{' :: text ++ '}' :: rest) =
      (lexemesAfter 0 (text ++ '}' :: rest)).map (.openBrace :: ·) := by
  refine Lexeme.lexemesAfter_openBrace fun first isFirst => Bool.eq_false_iff.mpr fun isDigit => ?_
  cases text with
  | nil =>
    cases isFirst
    exact absurd isDigit (by decide)
  | cons char more =>
    obtain rfl : char = first := Option.some.inj isFirst
    have stuck : lexemesAfter 0 (char :: more) = none := by
      rw [lexemesAfter, Lexeme.step_digit isDigit]
    have alone := spells []
    rw [List.append_nil, stuck] at alone
    cases alone

/-- A rule is cut into its label, punctuation and the lexemes of its pattern. -/
theorem rule {label text : List Char} {lexemes : List Lexeme}
    (isLabel : Lexeme.isLabel label = true) (spells : Spells text lexemes) :
    lexemesAfter 0 (label ++ ':' :: ' ' :: '{' :: text ++ ['}']) =
      some (.label (String.ofList label) :: .colon :: .openBrace :: lexemes ++ [.closeBrace]) := by
  have body : lexemesAfter 0 ('{' :: text ++ ['}']) =
      some (.openBrace :: lexemes ++ [.closeBrace]) := by
    rw [openBrace spells, spells]
    rfl
  have afterLabel : lexemesAfter 0 (':' :: ' ' :: '{' :: text ++ ['}']) =
      (lexemesAfter 0 ('{' :: text ++ ['}'])).map (.colon :: ·) :=
    char .colon rfl nofun (' ' :: '{' :: text ++ ['}'])
  rw [List.append_assoc,
    (Lexeme.HasText.label isLabel).lexemesAfter_append (by rintro _ ⟨⟩; rfl)]
  show (lexemesAfter 0 (':' :: ' ' :: '{' :: text ++ ['}'])).map _ = _
  rw [afterLabel, body]
  rfl

end Spells

end ShallowParse
