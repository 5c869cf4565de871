/-
This file says which runs of characters are the words of a text and proves that cutting a
text at its blanks finds just these. A run has no blank, and it cannot be made longer: on
either side of it there is a blank, or the text ends. The characters of the run being read
are kept in reverse, so for the induction they are put back before the text.
-/

import ShallowParse.Text.Blank

namespace ShallowParse.Text

/-- Whether these are the maximal runs without a blank of a text, in order. Blanks may stand before
each run and at the end of the text, and after each run there is a blank or nothing. -/
inductive HasRuns : List Char → List (List Char) → Prop where
  | none {gap : List Char} (areBlank : ∀ char ∈ gap, isBlank char = true) : HasRuns gap []
  | more {gap run rest : List Char} {runs : List (List Char)}
    (areBlank : ∀ char ∈ gap, isBlank char = true) (notEmpty : run ≠ [])
    (notBlank : ∀ char ∈ run, isBlank char = false)
    (ends : rest.head?.all isBlank = true) (others : HasRuns rest runs) :
    HasRuns (gap ++ run ++ rest) (run :: runs)

namespace HasRuns

theorem nil : HasRuns [] [] := none (List.forall_mem_nil _)

/-- A run comes before the runs of what nothing or a blank begins. -/
theorem cons {run rest : List Char} {runs : List (List Char)} (notEmpty : run ≠ [])
    (notBlank : ∀ char ∈ run, isBlank char = false)
    (ends : rest.head?.all isBlank = true) (others : HasRuns rest runs) :
    HasRuns (run ++ rest) (run :: runs) :=
  more (List.forall_mem_nil _) notEmpty notBlank ends others

/-- Blanks before a text change no run. -/
theorem blanks_append {gap text : List Char} {runs : List (List Char)}
    (areBlank : ∀ char ∈ gap, isBlank char = true) (hasRuns : HasRuns text runs) :
    HasRuns (gap ++ text) runs := by
  cases hasRuns with
  | none areBlankToo => exact none (List.forall_mem_append.mpr ⟨areBlank, areBlankToo⟩)
  | more areBlankToo notEmpty notBlank ends others =>
    rw [← List.append_assoc, ← List.append_assoc]
    exact more (List.forall_mem_append.mpr ⟨areBlank, areBlankToo⟩) notEmpty notBlank ends others

/-- Runs stay apart where blanks are put between them. -/
theorem intercalate {gap : List Char} (someBlank : gap ≠ [])
    (areBlank : ∀ char ∈ gap, isBlank char = true) {runs : List (List Char)}
    (areRuns : ∀ run ∈ runs, run ≠ [] ∧ ∀ char ∈ run, isBlank char = false) :
    HasRuns (gap.intercalate runs) runs := by
  induction runs with
  | nil => exact nil
  | cons run runs inductionHypothesis =>
    obtain ⟨⟨notEmpty, notBlank⟩, areOthers⟩ := List.forall_mem_cons.mp areRuns
    cases runs with
    | nil =>
      have alone := cons notEmpty notBlank rfl nil
      rw [List.append_nil] at alone
      rwa [List.intercalate_singleton]
    | cons next runs =>
      rw [List.intercalate_cons_cons, List.append_assoc]
      refine cons notEmpty notBlank ?_ (blanks_append areBlank (inductionHypothesis areOthers))
      obtain ⟨blank, blanks, rfl⟩ := List.exists_cons_of_ne_nil someBlank
      exact areBlank blank List.mem_cons_self

end HasRuns

/-! ### Cutting a text -/

theorem wordsFrom_blanks_append {gap : List Char} (areBlank : ∀ char ∈ gap, isBlank char = true)
    (rest : List Char) : wordsFrom [] (gap ++ rest) = wordsFrom [] rest := by
  induction gap with
  | nil => rfl
  | cons blank gap inductionHypothesis =>
    obtain ⟨isBlank, areOthers⟩ := List.forall_mem_cons.mp areBlank
    rw [List.cons_append, wordsFrom, if_pos isBlank]
    exact inductionHypothesis areOthers

/-- Characters that are no blanks belong to the run being read. -/
theorem wordsFrom_run_append {run : List Char} (notBlank : ∀ char ∈ run, isBlank char = false)
    (pending rest : List Char) :
    wordsFrom pending (run ++ rest) = wordsFrom (run.reverse ++ pending) rest := by
  induction run generalizing pending with
  | nil => rfl
  | cons char run inductionHypothesis =>
    obtain ⟨isSolid, areOthers⟩ := List.forall_mem_cons.mp notBlank
    rw [List.cons_append, wordsFrom, if_neg (Bool.eq_false_iff.mp isSolid),
      inductionHypothesis areOthers, List.reverse_cons, List.append_assoc, List.singleton_append]

/-- A run ends at a blank and at the end of the text. -/
theorem wordsFrom_of_ends {pending : List Char} (notEmpty : pending ≠ []) {rest : List Char}
    (ends : rest.head?.all isBlank = true) :
    wordsFrom pending rest = pending.reverse :: wordsFrom [] rest := by
  have isPending : pending.isEmpty = false := by simpa using notEmpty
  cases rest with
  | nil => simp [wordsFrom, isPending]
  | cons char rest =>
    have isBlank : isBlank char = true := ends
    simp [wordsFrom, isBlank, isPending]

/-- A text has no other runs than those it is cut into. -/
theorem HasRuns.wordsFrom_eq {text : List Char} {runs : List (List Char)}
    (hasRuns : HasRuns text runs) : wordsFrom [] text = runs := by
  induction hasRuns with
  | none areBlank =>
    have cut := wordsFrom_blanks_append areBlank []
    rwa [List.append_nil] at cut
  | @more gap run rest runs areBlank notEmpty notBlank ends _ inductionHypothesis =>
    rw [List.append_assoc, wordsFrom_blanks_append areBlank, wordsFrom_run_append notBlank,
      List.append_nil, wordsFrom_of_ends (List.reverse_ne_nil_iff.mpr notEmpty) ends,
      List.reverse_reverse, inductionHypothesis]

/-- A text is cut into the runs that it has together with the characters read before. -/
theorem hasRuns_wordsFrom {pending : List Char} (notBlank : ∀ char ∈ pending, isBlank char = false)
    (text : List Char) : HasRuns (pending.reverse ++ text) (wordsFrom pending text) := by
  have notBlankReversed : ∀ char ∈ pending.reverse, isBlank char = false :=
    fun char member => notBlank char (List.mem_reverse.mp member)
  induction text generalizing pending with
  | nil =>
    by_cases isEmpty : pending = []
    · rw [isEmpty]
      exact HasRuns.nil
    · rw [wordsFrom_of_ends isEmpty rfl]
      exact HasRuns.cons (List.reverse_ne_nil_iff.mpr isEmpty) notBlankReversed rfl HasRuns.nil
  | cons char rest inductionHypothesis =>
    cases kind : isBlank char with
    | false =>
      have longer : ∀ other ∈ char :: pending, isBlank other = false :=
        List.forall_mem_cons.mpr ⟨kind, notBlank⟩
      have hasRuns := inductionHypothesis longer
        fun other member => longer other (List.mem_reverse.mp member)
      rw [List.reverse_cons, List.append_assoc, List.singleton_append] at hasRuns
      rwa [wordsFrom, if_neg (by simp [kind])]
    | true =>
      have ends : (char :: rest).head?.all isBlank = true := kind
      have afterBlank : HasRuns (char :: rest) (wordsFrom [] (char :: rest)) := by
        rw [wordsFrom, if_pos kind]
        have ofRest := inductionHypothesis (List.forall_mem_nil _) (List.forall_mem_nil _)
        exact HasRuns.blanks_append (List.forall_mem_singleton.mpr kind) ofRest
      by_cases isEmpty : pending = []
      · rw [isEmpty]
        exact afterBlank
      · rw [wordsFrom_of_ends isEmpty ends]
        exact HasRuns.cons (List.reverse_ne_nil_iff.mpr isEmpty) notBlankReversed ends afterBlank

/-- The words of a text are its runs, and it has no others. -/
theorem hasRuns_iff {text : String} {runs : List String} :
    HasRuns text.toList (runs.map String.toList) ↔ words text = runs := by
  have cut : HasRuns text.toList ((words text).map String.toList) := by
    rw [words, List.map_map]
    simpa using hasRuns_wordsFrom (List.forall_mem_nil _) text.toList
  constructor
  · intro hasRuns
    rw [words, hasRuns.wordsFrom_eq, List.map_map]
    simp
  · rintro rfl
    exact cut

end ShallowParse.Text
