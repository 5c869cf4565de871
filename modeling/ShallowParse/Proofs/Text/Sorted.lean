/-
This file proves that sorting keeps the texts of a list, each once, and puts them in the
order of their bytes.
-/

import ShallowParse.Proofs.Text.ByteOrder
import ShallowParse.Text.Sorted

namespace ShallowParse.Text

theorem mem_insertSorted {text other : String} {texts : List String} :
    other ∈ insertSorted text texts ↔ other = text ∨ other ∈ texts := by
  induction texts with
  | nil => exact List.mem_cons
  | cons first rest inductionHypothesis =>
    rw [insertSorted]
    split
    · exact List.mem_cons
    · split
      · rename_i same
        rw [same, List.mem_cons, or_self_left]
      · rw [List.mem_cons, inductionHypothesis, List.mem_cons, or_left_comm]

theorem mem_sorted {text : String} {texts : List String} : text ∈ sorted texts ↔ text ∈ texts := by
  induction texts with
  | nil => rfl
  | cons first rest inductionHypothesis =>
    rw [sorted, List.foldr_cons, mem_insertSorted, ← sorted, inductionHypothesis, List.mem_cons]

theorem pairwise_insertSorted (text : String) {texts : List String}
    (increasing : texts.Pairwise (· < ·)) : (insertSorted text texts).Pairwise (· < ·) := by
  induction texts with
  | nil => exact List.pairwise_singleton _ _
  | cons first rest inductionHypothesis =>
    obtain ⟨firstLess, restIncreasing⟩ := List.pairwise_cons.mp increasing
    rw [insertSorted]
    split
    · rename_i isLess
      exact List.Pairwise.cons (List.forall_mem_cons.mpr
        ⟨isLess, fun other member => isLess.trans (firstLess other member)⟩) increasing
    · rename_i notLess
      split
      · exact increasing
      · rename_i different
        have isLess : first < text := lt_of_le_of_ne (not_lt.mp notLess) (Ne.symm different)
        refine List.Pairwise.cons (fun other member => ?_) (inductionHypothesis restIncreasing)
        rcases mem_insertSorted.mp member with rfl | ofRest
        · exact isLess
        · exact firstLess other ofRest

/-- What is sorted is in the order of its bytes, so no text is there twice. -/
theorem pairwise_sorted (texts : List String) :
    (sorted texts).Pairwise fun first second => bytes first < bytes second := by
  have increasing : (sorted texts).Pairwise (· < ·) := by
    induction texts with
    | nil => exact List.Pairwise.nil
    | cons first rest inductionHypothesis => exact pairwise_insertSorted first inductionHypothesis
  exact increasing.imp bytes_lt_bytes

end ShallowParse.Text
