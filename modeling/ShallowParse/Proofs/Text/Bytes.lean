/-
This file proves that a text is cut between two characters where the bytes of those
before the cut are counted. So a stretch of a text is found again by the bytes it is
between.
-/

import ShallowParse.Text.Bytes

namespace ShallowParse.Text

theorem byteLength_append (first second : List Char) :
    byteLength (first ++ second) = byteLength first + byteLength second := by
  induction first with
  | nil => exact (Nat.zero_add _).symm
  | cons char rest inductionHypothesis =>
    rw [List.cons_append, byteLength, byteLength, inductionHypothesis, Nat.add_assoc]

theorem byteLength_pos {text : List Char} (notEmpty : text ≠ []) : 0 < byteLength text := by
  cases text with
  | nil => exact absurd rfl notEmpty
  | cons char rest => exact Nat.add_pos_left char.utf8Size_pos _

/-! ### Cutting a text -/

theorem dropBytes_zero (text : List Char) : dropBytes 0 text = text := by
  cases text <;> rfl

theorem dropBytes_cons {count : Nat} (some : 0 < count) (char : Char) (rest : List Char) :
    dropBytes count (char :: rest) = dropBytes (count - char.utf8Size) rest := by
  cases count with
  | zero => exact absurd some (Nat.lt_irrefl 0)
  | succ count => rfl

/-- After the bytes of a beginning the rest is left. -/
theorem dropBytes_byteLength_append (before after : List Char) :
    dropBytes (byteLength before) (before ++ after) = after := by
  induction before with
  | nil => exact dropBytes_zero after
  | cons char before inductionHypothesis =>
    rw [List.cons_append, dropBytes_cons (byteLength_pos (List.cons_ne_nil _ _)), byteLength,
      Nat.add_sub_cancel_left, inductionHypothesis]

/-- The first bytes of a text, which must be those of whole characters. -/
def takeBytes : Nat → List Char → List Char
  | _, [] => []
  | 0, _ => []
  | count + 1, char :: rest => char :: takeBytes (count + 1 - char.utf8Size) rest

theorem takeBytes_zero (text : List Char) : takeBytes 0 text = [] := by
  cases text <;> rfl

theorem takeBytes_cons {count : Nat} (some : 0 < count) (char : Char) (rest : List Char) :
    takeBytes count (char :: rest) = char :: takeBytes (count - char.utf8Size) rest := by
  cases count with
  | zero => exact absurd some (Nat.lt_irrefl 0)
  | succ count => rfl

theorem takeBytes_byteLength_append (before after : List Char) :
    takeBytes (byteLength before) (before ++ after) = before := by
  induction before with
  | nil => exact takeBytes_zero after
  | cons char before inductionHypothesis =>
    rw [List.cons_append, takeBytes_cons (byteLength_pos (List.cons_ne_nil _ _)), byteLength,
      Nat.add_sub_cancel_left, inductionHypothesis]

/-- The stretch of a text between two of its bytes. -/
def slice (text : List Char) (start stop : Nat) : List Char :=
  takeBytes (stop - start) (dropBytes start text)

theorem slice_append (before stretch after : List Char) :
    slice (before ++ stretch ++ after) (byteLength before) (byteLength (before ++ stretch)) =
      stretch := by
  rw [slice, byteLength_append, Nat.add_sub_cancel_left, List.append_assoc,
    dropBytes_byteLength_append, takeBytes_byteLength_append]

end ShallowParse.Text
