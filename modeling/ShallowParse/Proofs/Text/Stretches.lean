/-
This file proves that a stretch of characters which is ended by a stop, or by the end of the
text, is the same however the text is parted.
-/

namespace ShallowParse.Text

/-- A stretch is cut off as a whole before a character that is no part of it. -/
theorem takeWhile_append_of_ends {isPart : Char → Bool} {stretch rest : List Char}
    (areParts : ∀ char ∈ stretch, isPart char = true)
    (ends : ∀ char ∈ rest.head?, isPart char = false) :
    (stretch ++ rest).takeWhile isPart = stretch := by
  have stops : rest.takeWhile isPart = [] := by
    cases rest with
    | nil => rfl
    | cons char rest => exact List.takeWhile_cons_of_neg (by simp [ends char rfl])
  rw [List.takeWhile_append_of_pos areParts, stops, List.append_nil]

/-- A stretch without stops is told from what follows it if that begins with a stop or is empty. -/
theorem eq_of_stops {stops first second rest other : List Char}
    (ofFirst : ∀ stop ∈ stops, stop ∉ first) (ofSecond : ∀ stop ∈ stops, stop ∉ second)
    (ends : ∀ char ∈ rest.head?, char ∈ stops) (otherEnds : ∀ char ∈ other.head?, char ∈ stops)
    (same : first ++ rest = second ++ other) : first = second ∧ rest = other := by
  induction first generalizing second with
  | nil =>
    cases second with
    | nil => exact ⟨rfl, same⟩
    | cons char second =>
      rw [List.nil_append] at same
      rw [same] at ends
      exact absurd List.mem_cons_self (ofSecond char (ends char rfl))
  | cons char first inductionHypothesis =>
    cases second with
    | nil =>
      rw [List.nil_append] at same
      rw [← same] at otherEnds
      exact absurd List.mem_cons_self (ofFirst char (otherEnds char rfl))
    | cons char second =>
      obtain ⟨rfl, sameAfter⟩ := List.cons.inj same
      have within := inductionHypothesis
        (fun stop isStop => List.not_mem_of_not_mem_cons (ofFirst stop isStop))
        (fun stop isStop => List.not_mem_of_not_mem_cons (ofSecond stop isStop)) sameAfter
      exact ⟨congrArg _ within.1, within.2⟩

end ShallowParse.Text
