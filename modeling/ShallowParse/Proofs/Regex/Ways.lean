/-
This file defines in which ways an expression matches by backtracking, and in
which ways a thread does. Both are what a search is measured against.
-/

import ShallowParse.Proofs.Matching.Ways
import ShallowParse.Regex.Thread

namespace ShallowParse

/-! ### Expressions -/

/-- The ways in which an expression matches, in order of preference. -/
def Regex.ways : Regex → Ways Char
  | empty => fun text => [text]
  | char wanted => Ways.single (· = wanted)
  | otherThan refused => Ways.single (· ≠ refused)
  | seq first second => fun text => (first.ways text).flatMap second.ways
  | alt first second => fun text => first.ways text ++ second.ways text
  | star body => Ways.endless body.ways
  | repeated body least most => Ways.repeated body.ways least most

theorem Regex.leavesSuffix_ways (regex : Regex) : Ways.LeavesSuffix regex.ways := by
  induction regex with
  | empty =>
    intro text rest member
    exact List.mem_singleton.mp member ▸ List.suffix_rfl
  | char wanted => exact Ways.leavesSuffix_single _
  | otherThan refused => exact Ways.leavesSuffix_single _
  | seq first second ofFirst ofSecond =>
    intro text rest member
    obtain ⟨middle, isMiddle, isRest⟩ := List.mem_flatMap.mp member
    exact (ofSecond middle rest isRest).trans (ofFirst text middle isMiddle)
  | alt first second ofFirst ofSecond =>
    intro text rest member
    rcases List.mem_append.mp member with isFirst | isSecond
    · exact ofFirst text rest isFirst
    · exact ofSecond text rest isSecond
  | star body ofBody => exact Ways.leavesSuffix_endless ofBody
  | repeated body least most ofBody => exact Ways.leavesSuffix_repeated ofBody least most

/-! ### Threads -/

/-- The ways in which a thread matches, in order of preference. -/
def Thread.ways : Thread → Ways Char
  | [], text => [text]
  | .todo regex :: after, text => (regex.ways text).flatMap (Thread.ways after)
  | .inFirst :: after, text => Thread.ways after text
  | .inSecond :: after, text => Thread.ways after text

namespace Thread

theorem ways_todo (regex : Regex) (after : Thread) (text : List Char) :
    ways (.todo regex :: after) text = (regex.ways text).flatMap after.ways := rfl

/-- Where no way of the expression can go on, the thread has no way. -/
theorem ways_todo_eq_nil_iff (regex : Regex) (after : Thread) (text : List Char) :
    ways (.todo regex :: after) text = [] ↔ ∀ rest ∈ regex.ways text, after.ways rest = [] := by
  rw [ways_todo, List.flatMap_eq_nil_iff]

theorem leavesSuffix_ways (thread : Thread) : Ways.LeavesSuffix thread.ways := by
  induction thread with
  | nil =>
    intro text rest member
    exact List.mem_singleton.mp member ▸ List.suffix_rfl
  | cons frame after inductionHypothesis =>
    cases frame with
    | todo regex =>
      intro text rest member
      obtain ⟨middle, isMiddle, isRest⟩ := List.mem_flatMap.mp member
      exact (inductionHypothesis middle rest isRest).trans
        (regex.leavesSuffix_ways text middle isMiddle)
    | inFirst => exact inductionHypothesis
    | inSecond => exact inductionHypothesis

/-- Two expressions one after the other are in a thread what their row is. -/
theorem ways_todo_todo (first second : Regex) (after : Thread) (text : List Char) :
    ways (.todo first :: .todo second :: after) text =
      ways (.todo (.seq first second) :: after) text := by
  rw [ways_todo, ways_todo, Regex.ways, List.flatMap_assoc]
  rfl

/-- A thread leaves no less if its first expression leaves no less. -/
theorem ways_todo_subset {first second : Regex} {text : List Char}
    (subset : first.ways text ⊆ second.ways text) (after : Thread) :
    ways (.todo first :: after) text ⊆ ways (.todo second :: after) text := by
  intro rest member
  obtain ⟨middle, isMiddle, isRest⟩ := List.mem_flatMap.mp member
  exact List.mem_flatMap.mpr ⟨middle, subset isMiddle, isRest⟩

/-- An expression that may leave the text leaves to what follows all of it. -/
theorem ways_after_subset {regex : Regex} {text : List Char} (member : text ∈ regex.ways text)
    (after : Thread) : ways after text ⊆ ways (.todo regex :: after) text :=
  fun _ isRest => List.mem_flatMap.mpr ⟨text, member, isRest⟩

theorem ways_todo_ne_nil {regex : Regex} {after : Thread} {text : List Char}
    (member : text ∈ regex.ways text) (alive : after.ways text ≠ []) :
    ways (.todo regex :: after) text ≠ [] := fun nothing =>
  alive ((ways_todo_eq_nil_iff _ _ _).mp nothing text member)

end Thread

end ShallowParse
