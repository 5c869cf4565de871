/-
This file says that a function of a row which goes through it item by item is a map of the
library. Functions of nodes and of patterns come with functions of rows of them, which do
nothing else.
-/

namespace ShallowParse

variable {Item Part : Type}

theorem eq_flatMap_of_cons {ofItem : Item → List Part} {ofRow : List Item → List Part}
    (nil : ofRow [] = []) (cons : ∀ item items, ofRow (item :: items) = ofItem item ++ ofRow items)
    (items : List Item) : ofRow items = items.flatMap ofItem := by
  induction items with
  | nil => exact nil
  | cons item items inductionHypothesis => rw [cons, inductionHypothesis, List.flatMap_cons]

theorem eq_map_of_cons {ofItem : Item → Part} {ofRow : List Item → List Part}
    (nil : ofRow [] = []) (cons : ∀ item items, ofRow (item :: items) = ofItem item :: ofRow items)
    (items : List Item) : ofRow items = items.map ofItem := by
  rw [List.map_eq_flatMap]
  exact eq_flatMap_of_cons nil cons items

end ShallowParse
