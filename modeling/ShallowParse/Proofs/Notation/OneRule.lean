/-
This file proves that a text of one line is read alike as one rule and as the rules of a
text. What a line holds says what it is as a rule: a rule has both its parts, and a label
or a pattern alone is an error. Where many rules are read, the label alone is reported
at the end only, but with the same error. The two readers part only at a text that has
no lexemes, which holds no rules, and so it is not one rule.
-/

import ShallowParse.Proofs.Notation.LineEnds
import ShallowParse.Proofs.Notation.RuleLines
import ShallowParse.Proofs.Notation.Tiling
import ShallowParse.Proofs.Text.Lines

namespace ShallowParse

open Lexing RulesReader

/-! ### A line as one rule -/

/-- The rule that a line is, or why it is none. -/
def LineKind.toRule : LineKind → Except NotationError Rule
  | blank => .error (.syntactic .nothing)
  | label name => .error (.missingPattern name)
  | pattern _ => .error .missingLabel
  | rule name body => .ok ⟨name, body⟩
  | bad cause => .error cause

theorem Rule.ofText_eq (text : String) : Rule.ofText text = (LineKind.ofText text).toRule := by
  rw [Rule.ofText, LineKind.ofText]
  cases Lexeme.ofText text with
  | error cause => rfl
  | ok lexemes =>
    cases lexemes with
    | nil => rfl
    | cons lexeme rest =>
      show (RuleLine.ofLexemes (lexeme :: rest) >>= _) =
        (LineKind.ofLexemes (lexeme :: rest)).toRule
      rw [LineKind.ofLexemes]
      cases read : RuleLine.ofLexemes (lexeme :: rest) with
      | error cause => rfl
      | ok line =>
        have notBlank := LineKind.ofRuleLine_ne_blank read
        obtain ⟨label, body⟩ := line
        cases label with
        | some name => cases body <;> rfl
        | none =>
          cases body with
          | some body => rfl
          | none => exact absurd rfl notBlank

/-- A text of one line that is not blank holds the rule that it is, and an error is on line one. -/
theorem Rule.allOfText_eq {text : String} (onOneLine : '\n' ∉ text.toList)
    (notBlank : LineKind.ofText text ≠ .blank) :
    Rule.allOfText text = ((Rule.ofText text).map ([·])).mapError (⟨1, ·⟩) := by
  have notEmpty : text.toList ≠ [] := by
    intro isEmpty
    rw [ne_eq, LineKind.ofText_eq_blank_iff, Lexeme.ofText_eq_nil_iff, isEmpty] at notBlank
    exact notBlank .nothing
  show start.readOn 1 (Text.lines text) = _
  rw [Text.lines_eq_singleton onOneLine notEmpty, readOn_cons, addText_eq, Rule.ofText_eq]
  generalize LineKind.ofText text = kind at notBlank
  cases kind with
  | blank => exact absurd rfl notBlank
  | _ => rfl

/-! ### Texts without lexemes -/

theorem Lexing.IsGap.dropReturn {pending : List Char} (isGap : IsGap [] pending.reverse) :
    IsGap [] (Text.dropReturn pending) := by
  rw [Text.dropReturn.eq_def]
  split
  · rename_i rest
    have read : Lexeme.ofText (String.ofList rest.reverse ++ "\r") = .ok [] :=
      Lexeme.ofText_eq_nil_iff.mpr (by simpa using isGap)
    simpa using Lexeme.ofText_eq_nil_iff.mp (Lexeme.ofText_of_append_return read)
  · exact isGap

/-- The lines of a gap are gaps. -/
theorem Lexing.IsGap.of_mem_linesFrom {pending text line : List Char} (onOneLine : '\n' ∉ pending)
    (isGap : IsGap [] (pending.reverse ++ text)) (member : line ∈ Text.linesFrom pending text) :
    IsGap [] line := by
  induction text generalizing pending with
  | nil =>
    rw [Text.linesFrom] at member
    split at member
    · cases member
    · rw [List.append_nil] at isGap
      exact List.mem_singleton.mp member ▸ isGap
  | cons char rest inductionHypothesis =>
    rw [Text.linesFrom] at member
    split at member
    · rename_i isFeed
      obtain ⟨isLast, isRest⟩ := (isFeed ▸ isGap).of_append_feed (by simpa using onOneLine)
      rcases List.mem_cons.mp member with rfl | isLater
      · exact isLast.dropReturn
      · exact inductionHypothesis List.not_mem_nil isRest isLater
    · rename_i noFeed
      -- What is pending and what is left stay the same gap, cut one character later.
      refine inductionHypothesis (List.not_mem_cons_of_ne_of_not_mem (Ne.symm noFeed) onOneLine) ?_
        member
      rwa [List.reverse_cons, List.append_assoc]

/-- A reader passes over lines without lexemes. -/
theorem RulesReader.addLines_of_blank (reader : RulesReader) (line : Nat) {texts : List String}
    (areBlank : ∀ text ∈ texts, Lexeme.ofText text = .ok []) :
    reader.addLines line texts = .ok reader := by
  induction texts generalizing line with
  | nil => rfl
  | cons text texts inductionHypothesis =>
    obtain ⟨isBlank, othersBlank⟩ := List.forall_mem_cons.mp areBlank
    rw [addLines, addText, isBlank]
    exact inductionHypothesis (line + 1) othersBlank

/-- A text of blanks and comments, on any number of lines, holds no rules. -/
theorem Rule.allOfText_of_isGap {text : String} (isGap : IsGap [] text.toList) :
    Rule.allOfText text = .ok [] := by
  have areBlank : ∀ line ∈ Text.lines text, Lexeme.ofText line = .ok [] := by
    intro line member
    obtain ⟨chars, isLine, rfl⟩ := List.mem_map.mp member
    rw [Lexeme.ofText_eq_nil_iff, String.toList_ofList]
    exact IsGap.of_mem_linesFrom List.not_mem_nil isGap isLine
  rw [Rule.allOfText, start.addLines_of_blank 1 areBlank]
  rfl

/-! ### Both readers -/

/-- Reading one rule and reading all rules agree on each text of one line, unless it has no lexemes.
They make the same rule, or report the same error, which is on line one where all rules are read.
A text that has no lexemes, since it is made up of blanks and comments, holds no rules, and it is
no rule. -/
theorem Rule.readers_agree_on_one_line (text : String) :
    ('\n' ∉ text.toList → Lexeme.ofText text ≠ .ok [] →
      (∀ rule, Rule.allOfText text = .ok [rule] ↔ Rule.ofText text = .ok rule) ∧
      ∀ cause, Rule.ofText text = .error cause → Rule.allOfText text = .error ⟨1, cause⟩) ∧
    (IsGap [] text.toList →
      Rule.allOfText text = .ok [] ∧ ∃ error, Rule.ofText text = .error (.syntactic error)) := by
  refine ⟨fun onOneLine hasLexemes => ?_, fun isGap => ⟨Rule.allOfText_of_isGap isGap, ?_⟩⟩
  · have agree := Rule.allOfText_eq onOneLine fun isBlank =>
      hasLexemes ((LineKind.ofText_eq_blank_iff text).mp isBlank)
    rw [agree]
    cases Rule.ofText text with
    | error cause => exact ⟨fun _ => ⟨nofun, nofun⟩, fun _ same => Except.error.inj same ▸ rfl⟩
    | ok rule =>
      refine ⟨fun other => ⟨fun same => ?_, fun same => ?_⟩, nofun⟩
      · exact congrArg _ (List.head_eq_of_cons_eq (Except.ok.inj same))
      · exact Except.ok.inj same ▸ rfl
  · rw [Rule.ofText_eq,
      (LineKind.ofText_eq_blank_iff text).mpr (Lexeme.ofText_eq_nil_iff.mpr isGap)]
    exact ⟨.nothing, rfl⟩

/-- A label alone is the same error for both readers, and a comment before an empty line no rule. -/
theorem Rule.readers_agree_on_label_and_comment :
    Rule.allOfText "NP:" = .error ⟨1, .missingPattern "NP"⟩ ∧
      Rule.allOfText "# é\n\t" = .ok [] := by
  have ofLabel := (Rule.readers_agree_on_one_line "NP:").1 (by decide) (by decide)
  have ofComment := (Rule.readers_agree_on_one_line "# é\n\t").2
  refine ⟨ofLabel.2 _ rfl, (ofComment ?_).1⟩
  rw [← Lexeme.ofText_eq_nil_iff]
  rfl

end ShallowParse
