/-
This file proves in which ways an assembled expression matches: a row in those of
its parts one after the other, alternatives in those of each in turn, a repetition
in those of its copies.
-/

import Mathlib.Data.List.Basic
import ShallowParse.Proofs.Matching.SameOrder
import ShallowParse.Proofs.Regex.Ways
import ShallowParse.Regex.Assembly

namespace ShallowParse.Regex

/-! ### One after the other -/

theorem ways_append (first second : Regex) (text : List Char) :
    (first.append second).ways text = (first.ways text).flatMap second.ways := by
  fun_induction append first second generalizing text with
  | case1 second => exact (List.flatMap_singleton _ _).symm
  | case2 first rest second inductionHypothesis =>
    rw [ways, ways, List.flatMap_assoc]
    exact List.flatMap_congr fun middle _ => inductionHypothesis middle
  | case3 first => exact (List.flatMap_singleton' _).symm
  | case4 first second => rfl

theorem ways_inOrder_append (before after : List Regex) (text : List Char) :
    (inOrder (before ++ after)).ways text =
      ((inOrder before).ways text).flatMap (inOrder after).ways := by
  induction before generalizing text with
  | nil => exact (List.flatMap_singleton _ _).symm
  | cons first others inductionHypothesis =>
    rw [List.cons_append, inOrder, inOrder, ways_append, ways_append, List.flatMap_assoc]
    exact List.flatMap_congr fun middle _ => inductionHypothesis middle

/-- A literal has one way on a text that begins with it. -/
theorem ways_literal (chars text : List Char) :
    (literal chars).ways text = if chars <+: text then [text.drop chars.length] else [] := by
  induction chars generalizing text with
  | nil => rfl
  | cons wanted chars inductionHypothesis =>
    show ((char wanted).append (literal chars)).ways text = _
    rw [ways_append, ways]
    cases text with
    | nil => rfl
    | cons first rest =>
      simp only [Ways.single, decide_eq_true_eq, List.cons_prefix_cons, eq_comm (a := wanted)]
      by_cases same : first = wanted
      · rw [if_pos same, List.flatMap_singleton, inductionHypothesis]
        simp only [same, true_and, List.length_cons, List.drop_succ_cons]
      · simp only [same, false_and, if_false, List.flatMap_nil]

/-- The items of a row make up the row. -/
theorem ways_inOrder_items (row : Regex) (text : List Char) :
    (inOrder row.items).ways text = row.ways text := by
  fun_induction items row generalizing text with
  | case1 => rfl
  | case2 first rest inductionHypothesis =>
    rw [inOrder, ways_append, ways]
    exact List.flatMap_congr fun middle _ => inductionHypothesis middle
  | case3 item =>
    rw [inOrder, ways_append]
    exact List.flatMap_singleton' _

theorem flatten_addPiece (item : Regex) (pieces : List (List Regex)) :
    (addPiece item pieces).flatten = item :: pieces.flatten := by
  fun_cases addPiece item pieces <;> rfl

/-- The pieces of a row hold its items. -/
theorem flatten_pieces (row : Regex) : row.pieces.flatten = row.items := by
  rw [pieces]
  induction row.items with
  | nil => rfl
  | cons item others inductionHypothesis =>
    rw [List.foldr_cons, flatten_addPiece, inductionHypothesis]

/-! ### Alternatives -/

theorem ways_branches (regex : Regex) (text : List Char) :
    (regex.branches.flatMap fun branch => branch.ways text) = regex.ways text := by
  fun_induction branches regex with
  | case1 first second ofFirst ofSecond =>
    rw [List.flatMap_append, ofFirst, ofSecond, ways]
  | case2 branch => exact List.flatMap_singleton _ _

theorem branches_ne_nil (regex : Regex) : regex.branches ≠ [] := by
  fun_induction branches regex with
  | case1 first second ofFirst ofSecond => exact List.append_ne_nil_of_left_ne_nil ofFirst _
  | case2 branch => exact List.cons_ne_nil _ _

theorem ways_anyOf (regexes : List Regex) (some : regexes ≠ []) (text : List Char) :
    (anyOf regexes).ways text = regexes.flatMap fun regex => regex.ways text := by
  fun_induction anyOf regexes with
  | case1 => exact absurd rfl some
  | case2 only => exact (List.flatMap_singleton _ _).symm
  | case3 first others severalOthers inductionHypothesis =>
    rw [List.flatMap_cons, ← inductionHypothesis severalOthers]
    rfl

theorem commonBeginning_isPrefix (left right : List (List Regex)) :
    commonBeginning left right <+: left ∧ commonBeginning left right <+: right := by
  fun_induction commonBeginning left right with
  | case1 left lefts rights inductionHypothesis =>
    exact ⟨List.cons_prefix_cons.mpr ⟨rfl, inductionHypothesis.1⟩,
      List.cons_prefix_cons.mpr ⟨rfl, inductionHypothesis.2⟩⟩
  | case2 left lefts right rights differ => exact ⟨List.nil_prefix, List.nil_prefix⟩
  | case3 left right _ => exact ⟨List.nil_prefix, List.nil_prefix⟩

theorem foldl_commonBeginning_isPrefix (others : List (List (List Regex)))
    (first : List (List Regex)) :
    ∀ row ∈ first :: others, others.foldl commonBeginning first <+: row := by
  induction others generalizing first with
  | nil => exact List.forall_mem_singleton.mpr (List.prefix_refl first)
  | cons second others inductionHypothesis =>
    obtain ⟨ofCommon, ofOthers⟩ :=
      List.forall_mem_cons.mp (inductionHypothesis (commonBeginning first second))
    obtain ⟨ofFirst, ofSecond⟩ := commonBeginning_isPrefix first second
    exact List.forall_mem_cons.mpr ⟨ofCommon.trans ofFirst,
      List.forall_mem_cons.mpr ⟨ofCommon.trans ofSecond, ofOthers⟩⟩

/-- All rows begin with their shared beginning. -/
theorem sharedBeginning_isPrefix (rows : List (List (List Regex))) :
    ∀ row ∈ rows, sharedBeginning rows <+: row := by
  cases rows with
  | nil => exact List.forall_mem_nil _
  | cons first others => exact foldl_commonBeginning_isPrefix others first

end ShallowParse.Regex
