/-
This file proves what a pattern without a fault is made up of.
-/

import ShallowParse.Pattern

namespace ShallowParse.Pattern

theorem ne_zero_of_boundsFault? {least : Nat} {most : Option Nat}
    (faultless : boundsFault? least most = none) : most ≠ some 0 := by
  rintro rfl
  rw [boundsFault?, if_pos rfl] at faultless
  split at faultless <;> cases faultless

theorem faultless_alternatives {alternatives : List Pattern}
    (faultless : (alternation alternatives).fault? = none) :
    alternatives ≠ [] ∧ faultOfAny? alternatives = none := by
  rw [fault?] at faultless
  split at faultless
  · cases faultless
  · rename_i some
    exact ⟨fun none => some (none ▸ rfl), faultless⟩

end ShallowParse.Pattern
