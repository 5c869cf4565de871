/-
This file proves that the search for a match does not look ahead. What comes after
the match in the text has no influence on it, so the same match is found where the
text is cut anywhere after its end.
-/

import ShallowParse.Proofs.Regex.Matching

namespace ShallowParse

/-- Threads find the same in a text that is cut, unless they take more than is left of it. -/
theorem Thread.preferredLength?_take (text : List Char) (threads : List Thread) (count : Nat)
    (within : ∀ length ∈ preferredLength? threads text, length ≤ count) :
    preferredLength? threads (text.take count) = preferredLength? threads text := by
  induction text generalizing threads count with
  | nil => rw [List.take_nil]
  | cons char rest inductionHypothesis =>
    let following := unfoldAll ((preferred threads).filterMap (advance? char))
    have goesOn : ∀ length ∈ preferredLength? following rest, length + 1 ≤ count := by
      intro length isLength
      refine within (length + 1) ?_
      rw [preferredLength?_cons, isLength]
      rfl
    cases count with
    | zero =>
      have stuck : preferredLength? following rest = none :=
        Option.eq_none_iff_forall_not_mem.mpr fun length isLength =>
          absurd (goesOn length isLength) (Nat.not_succ_le_zero length)
      rw [preferredLength?_cons, stuck]
      rfl
    | succ count =>
      rw [List.take_succ_cons, preferredLength?_cons, preferredLength?_cons,
        inductionHypothesis following count fun length isLength =>
          Nat.le_of_succ_le_succ (goesOn length isLength)]

/-- An expression has the same match in a text that is cut after the match. -/
theorem Regex.matchLength?_take (regex : Regex) (text : List Char) (count : Nat)
    (within : ∀ length ∈ regex.matchLength? text, length ≤ count) :
    regex.matchLength? (text.take count) = regex.matchLength? text :=
  Thread.preferredLength?_take text _ count within

end ShallowParse
