/-
This file proves that lines which are each ended by a line feed are cut apart again,
and that a line feed between two texts keeps their lines apart. There the last line of
the first text may lose a carriage return or, if it is empty, become a line. Neither
matters to what reads lines as blanks allow.
-/

import ShallowParse.Text.Blank

namespace ShallowParse.Text

/-- Characters without a line feed belong to the line being read. -/
theorem linesFrom_append {line : List Char} (noBreak : '\n' ∉ line) (pending rest : List Char) :
    linesFrom pending (line ++ rest) = linesFrom (line.reverse ++ pending) rest := by
  induction line generalizing pending with
  | nil => rfl
  | cons char line inductionHypothesis =>
    rw [List.mem_cons, not_or] at noBreak
    obtain ⟨notHere, notAfter⟩ := noBreak
    rw [List.cons_append, linesFrom, if_neg (Ne.symm notHere), inductionHypothesis notAfter,
      List.reverse_cons, List.append_assoc, List.singleton_append]

/-- A text without a line feed is one line. -/
theorem lines_eq_singleton {text : String} (onOneLine : '\n' ∉ text.toList)
    (notEmpty : text.toList ≠ []) : lines text = [text] := by
  have cut : linesFrom [] text.toList = [text.toList] := by
    have isPending := linesFrom_append onOneLine [] []
    rw [List.append_nil, List.append_nil, linesFrom, List.reverse_reverse] at isPending
    rw [isPending, if_neg (by simpa using notEmpty)]
  rw [lines, cut, List.map_singleton, String.ofList_toList]

theorem dropReturn_reverse {line : List Char} (noReturn : line.getLast? ≠ some '\r') :
    dropReturn line.reverse = line := by
  rw [← List.head?_reverse] at noReturn
  rw [dropReturn.eq_def]
  split
  · rename_i rest isReversed
    rw [isReversed] at noReturn
    exact absurd rfl noReturn
  · exact List.reverse_reverse line

/-- Lines are cut at the line feeds that end them. -/
theorem lines_join {texts : List String} (noBreak : ∀ text ∈ texts, '\n' ∉ text.toList)
    (noReturn : ∀ text ∈ texts, text.toList.getLast? ≠ some '\r') :
    lines (String.join (texts.map (· ++ "\n"))) = texts := by
  induction texts with
  | nil => rfl
  | cons text texts inductionHypothesis =>
    obtain ⟨noBreakHere, noBreakAfter⟩ := List.forall_mem_cons.mp noBreak
    obtain ⟨noReturnHere, noReturnAfter⟩ := List.forall_mem_cons.mp noReturn
    have cut : linesFrom [] ((text ++ "\n" ++ String.join (texts.map (· ++ "\n"))).toList) =
        text.toList :: linesFrom [] (String.join (texts.map (· ++ "\n"))).toList := by
      rw [String.toList_append, String.toList_append, List.append_assoc,
        linesFrom_append noBreakHere, List.append_nil]
      show dropReturn text.toList.reverse :: _ = _
      rw [dropReturn_reverse noReturnHere]
      rfl
    rw [List.map_cons, String.join_cons, lines, cut, List.map_cons, String.ofList_toList]
    exact congrArg _ (inductionHypothesis noBreakAfter noReturnAfter)

/-- A character stands in joined texts only if it stands in one of them or between them. -/
theorem notMem_intercalate {char : Char} {separator : List Char} {texts : List (List Char)}
    (notBetween : char ∉ separator) (notWithin : ∀ text ∈ texts, char ∉ text) :
    char ∉ separator.intercalate texts := by
  induction texts with
  | nil => exact List.not_mem_nil
  | cons text others inductionHypothesis =>
    obtain ⟨notHere, notAfter⟩ := List.forall_mem_cons.mp notWithin
    cases others with
    | nil => rwa [List.intercalate_singleton]
    | cons next others =>
      rw [List.intercalate_cons_cons]
      exact List.not_mem_append (List.not_mem_append notHere notBetween)
        (inductionHypothesis notAfter)

/-! ### A line feed between texts -/

/-- A line feed after a text ends its last line, which may have been empty so far. -/
theorem linesFrom_append_feed (pending first second : List Char) :
    ∃ whole last, linesFrom pending (first ++ '\n' :: second) =
        whole ++ dropReturn last :: linesFrom [] second ∧
      linesFrom pending first = whole ++ if last.isEmpty then [] else [last.reverse] := by
  induction first generalizing pending with
  | nil => exact ⟨[], pending, rfl, rfl⟩
  | cons char rest inductionHypothesis =>
    rw [List.cons_append, linesFrom, linesFrom]
    split
    · obtain ⟨whole, last, isLonger, isShorter⟩ := inductionHypothesis []
      exact ⟨dropReturn pending :: whole, last, congrArg _ isLonger, congrArg _ isShorter⟩
    · exact inductionHypothesis (char :: pending)

/-- A line feed between two texts keeps their lines apart. The last line before it may lose a carriage
return, or it is empty and was no line before. -/
theorem lines_append_feed (first second : String) :
    ∃ whole last, lines (first ++ "\n" ++ second) = whole ++ last :: lines second ∧
      (lines first = whole ∧ last = "" ∨ lines first = whole ++ [last] ∨
        lines first = whole ++ [last ++ "\r"]) := by
  obtain ⟨whole, last, isLonger, isShorter⟩ :=
    linesFrom_append_feed [] first.toList second.toList
  have isFed : (first ++ "\n" ++ second).toList = first.toList ++ '\n' :: second.toList := by
    simp
  refine ⟨whole.map String.ofList, String.ofList (dropReturn last), ?_, ?_⟩
  · rw [lines, isFed, isLonger, List.map_append, List.map_cons, lines]
  · rw [lines, isShorter, List.map_append]
    cases last with
    | nil => exact Or.inl (by simp [dropReturn])
    | cons char rest =>
      by_cases isReturn : char = '\r'
      · exact Or.inr (Or.inr (by simp [dropReturn, isReturn]))
      · exact Or.inr (Or.inl (by simp [dropReturn, isReturn]))

/-- Lines count alike on their own and in a longer text if an empty line counts nothing and a
carriage return at the end of a line makes no difference. -/
theorem flatMap_lines_append_feed {Value : Type} {value : String → List Value}
    (ofEmpty : value "" = []) (ofReturn : ∀ line, value (line ++ "\r") = value line)
    (first second : String) :
    (lines (first ++ "\n" ++ second)).flatMap value =
      (lines first).flatMap value ++ (lines second).flatMap value := by
  obtain ⟨whole, last, isLonger, isShorter⟩ := lines_append_feed first second
  rw [isLonger, List.flatMap_append, List.flatMap_cons, ← List.append_assoc]
  refine congrArg (· ++ _) ?_
  rcases isShorter with ⟨isWhole, rfl⟩ | isLine | isEnded
  · rw [isWhole, ofEmpty, List.append_nil]
  · rw [isLine, List.flatMap_append, List.flatMap_singleton]
  · rw [isEnded, List.flatMap_append, List.flatMap_singleton, ofReturn]

/-! ### Blanks after a text -/

theorem isBlankText_append (first second : String) :
    isBlankText (first ++ second) = (isBlankText first && isBlankText second) := by
  rw [isBlankText, String.toList_append, List.all_append]
  rfl

theorem wordsFrom_append_blank {blank : Char} (isBlank : isBlank blank = true)
    (pending chars : List Char) :
    wordsFrom pending (chars ++ [blank]) = wordsFrom pending chars := by
  induction chars generalizing pending with
  | nil =>
    rw [List.nil_append, wordsFrom.eq_2, if_pos isBlank]
    rfl
  | cons char rest inductionHypothesis =>
    rw [List.cons_append, wordsFrom, wordsFrom, inductionHypothesis, inductionHypothesis]

end ShallowParse.Text
