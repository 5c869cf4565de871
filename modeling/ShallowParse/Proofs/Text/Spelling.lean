/-
This file says when a text spells pieces: a lexer cuts it into them whatever comes after
it, so that such texts can be put one after the other. A lexer goes along a text character
by character and is given how many characters still belong to the piece before.
-/

namespace ShallowParse.Text

variable {Piece : Type} {cut : Nat → List Char → Option (List Piece)}

/-- Whether a lexer passes over the characters that still belong to the piece before. -/
def PassesOver (cut : Nat → List Char → Option (List Piece)) : Prop :=
  ∀ extra char rest, cut (extra + 1) (char :: rest) = cut extra rest

theorem PassesOver.append (passesOver : PassesOver cut) (text rest : List Char) :
    cut text.length (text ++ rest) = cut 0 rest := by
  induction text with
  | nil => rfl
  | cons char text inductionHypothesis =>
    rw [List.length_cons, List.cons_append, passesOver, inductionHypothesis]

/-- Whether a text is cut into these pieces, whatever comes after it. -/
def Spells (cut : Nat → List Char → Option (List Piece)) (text : List Char)
    (pieces : List Piece) : Prop :=
  ∀ rest, cut 0 (text ++ rest) = (cut 0 rest).map (pieces ++ ·)

namespace Spells

theorem nil : Spells cut [] [] := fun _ => Option.map_id'.symm

theorem append {first second : List Char} {pieces others : List Piece}
    (ofFirst : Spells cut first pieces) (ofSecond : Spells cut second others) :
    Spells cut (first ++ second) (pieces ++ others) := by
  intro rest
  rw [List.append_assoc, ofFirst, ofSecond, Option.map_map]
  refine congrArg (Option.map · _) (funext fun after => ?_)
  exact (List.append_assoc pieces others after).symm

/-- A text spells pieces if its first character gives them and takes the others with it. -/
theorem cons (passesOver : PassesOver cut) {first : Char} {more : List Char} {pieces : List Piece}
    (step : ∀ rest, cut 0 (first :: (more ++ rest)) =
      (cut more.length (more ++ rest)).map (pieces ++ ·)) :
    Spells cut (first :: more) pieces := by
  intro rest
  rw [List.cons_append, step, passesOver.append]

end Spells

end ShallowParse.Text
