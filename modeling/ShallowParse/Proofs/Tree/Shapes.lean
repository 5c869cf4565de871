/-
This file proves that the shapes of trees identify their forms: trees with the same shape differ
in the texts of their words only. A symbol ends where a bracket or a space comes or the shape
ends, and a phrase is told from a word by its opening bracket. For the induction over the nodes
something may follow a shape, which is then determined as well.
-/

import ShallowParse.Proofs.Text.Stretches
import ShallowParse.Proofs.Tree.Rewording
import ShallowParse.Tree.Check

namespace ShallowParse

namespace Node

/-! ### Plain symbols -/

/-- Whether each tag and each label from a node on down is not empty and has no space and no
bracket. -/
def HasPlainSymbols (node : Node) : Prop :=
  ∀ below ∈ node.withDescendants,
    below.symbol ≠ "" ∧ ∀ sign ∈ [' ', '[', ']'], sign ∉ below.symbol.toList

instance (node : Node) : Decidable node.HasPlainSymbols :=
  -- Only the three signs are gone through, not all characters.
  have (below : Node) : Decidable (∀ sign ∈ [' ', '[', ']'], sign ∉ below.symbol.toList) :=
    List.decidableBAll (· ∉ below.symbol.toList) _
  inferInstanceAs (Decidable (∀ below ∈ node.withDescendants, _))

theorem HasPlainSymbols.symbol {node : Node} (plain : node.HasPlainSymbols) :
    node.symbol ≠ "" ∧ ∀ sign ∈ [' ', '[', ']'], sign ∉ node.symbol.toList := by
  refine plain node ?_
  cases node <;> exact List.mem_cons_self

theorem HasPlainSymbols.children {node : Node} (plain : node.HasPlainSymbols) :
    ∀ child ∈ node.children, child.HasPlainSymbols := by
  cases node with
  | leaf token => exact List.forall_mem_nil _
  | phrase label children => exact (forall_mem_withDescendants_phrase.mp plain).2

/-! ### What follows a symbol -/

/-- What follows the symbol of a node in its shape, given what follows the shape. -/
def afterSymbol (rest : List Char) : Node → List Char
  | leaf _ => rest
  | phrase _ children => '[' :: ((shapesOfAll children).toList ++ ']' :: rest)

theorem toList_shape (node : Node) (rest : List Char) :
    node.shape.toList ++ rest = node.symbol.toList ++ node.afterSymbol rest := by
  cases node with
  | leaf token => rfl
  | phrase label children => simp [shape, symbol, afterSymbol]

theorem head_afterSymbol (node : Node) {rest : List Char}
    (ends : ∀ char ∈ rest.head?, char ∈ [' ', ']']) :
    ∀ char ∈ (node.afterSymbol rest).head?, char ∈ [' ', '[', ']'] := by
  cases node with
  | leaf token =>
    intro char isFirst
    exact (show [' ', ']'] ⊆ [' ', '[', ']'] by decide) (ends char isFirst)
  | phrase label children =>
    rintro char ⟨⟩
    decide

/-- What follows the shape of the first node of a row, given the other nodes and what follows the
bracket that closes the row. -/
def afterShape (rest : List Char) : List Node → List Char
  | [] => ']' :: rest
  | node :: nodes => ' ' :: ((shapesOfAll (node :: nodes)).toList ++ ']' :: rest)

theorem toList_shapesOfAll_cons (node : Node) (nodes : List Node) (rest : List Char) :
    (shapesOfAll (node :: nodes)).toList ++ ']' :: rest =
      node.shape.toList ++ afterShape rest nodes := by
  cases nodes with
  | nil => rfl
  | cons other nodes => simp [shapesOfAll, afterShape]

theorem head_afterShape (rest : List Char) (nodes : List Node) :
    ∀ char ∈ (afterShape rest nodes).head?, char ∈ [' ', ']'] := by
  cases nodes <;>
  · rintro char ⟨⟩
    decide

/-! ### Shapes and forms -/

/-- No shape begins with the bracket that closes a row. -/
theorem shapesOfAll_cons_ne_nil {node : Node} (plain : node.HasPlainSymbols) (nodes : List Node)
    (rest other : List Char) :
    (shapesOfAll (node :: nodes)).toList ++ ']' :: rest ≠
      (shapesOfAll []).toList ++ ']' :: other := by
  intro same
  rw [toList_shapesOfAll_cons, toList_shape] at same
  obtain ⟨isEmpty, _⟩ := Text.eq_of_stops plain.symbol.2 (fun _ _ => List.not_mem_nil)
    (head_afterSymbol node (head_afterShape rest nodes))
    (by rintro char ⟨⟩; decide) (show _ = [] ++ ']' :: other from same)
  exact plain.symbol.1 (String.toList_eq_nil_iff.mp isEmpty)

mutual

/-- The shape of a node determines its form, and where the shape ends. -/
theorem form_eq_of_shape (first second : Node) (ofFirst : first.HasPlainSymbols)
    (ofSecond : second.HasPlainSymbols) {rest other : List Char}
    (ends : ∀ char ∈ rest.head?, char ∈ [' ', ']'])
    (otherEnds : ∀ char ∈ other.head?, char ∈ [' ', ']'])
    (same : first.shape.toList ++ rest = second.shape.toList ++ other) :
    first.form = second.form ∧ rest = other := by
  rw [toList_shape, toList_shape] at same
  obtain ⟨sameSymbol, sameAfter⟩ := Text.eq_of_stops ofFirst.symbol.2 ofSecond.symbol.2
    (head_afterSymbol first ends) (head_afterSymbol second otherEnds) same
  rw [String.toList_inj] at sameSymbol
  match first, second with
  | leaf token, leaf other => exact ⟨congrArg (fun tag => leaf ⟨"", tag⟩) sameSymbol, sameAfter⟩
  | leaf token, phrase label children =>
    exact absurd (ends '[' (congrArg List.head? sameAfter)) (by decide)
  | phrase label children, leaf token =>
    exact absurd (otherEnds '[' (congrArg List.head? sameAfter.symm)) (by decide)
  | phrase label children, phrase otherLabel others =>
    obtain ⟨sameChildren, sameRest⟩ := formOfAll_eq_of_shapes children others ofFirst.children
      ofSecond.children (List.cons.inj sameAfter).2
    obtain rfl : label = otherLabel := sameSymbol
    exact ⟨congrArg (phrase label) sameChildren, sameRest⟩

theorem formOfAll_eq_of_shapes (firsts seconds : List Node)
    (ofFirsts : ∀ node ∈ firsts, node.HasPlainSymbols)
    (ofSeconds : ∀ node ∈ seconds, node.HasPlainSymbols) {rest other : List Char}
    (same : (shapesOfAll firsts).toList ++ ']' :: rest =
      (shapesOfAll seconds).toList ++ ']' :: other) :
    formOfAll firsts = formOfAll seconds ∧ rest = other := by
  match firsts, seconds with
  | [], [] => exact ⟨rfl, (List.cons.inj same).2⟩
  | [], node :: nodes =>
    exact absurd same.symm (shapesOfAll_cons_ne_nil (ofSeconds node List.mem_cons_self) nodes _ _)
  | node :: nodes, [] =>
    exact absurd same (shapesOfAll_cons_ne_nil (ofFirsts node List.mem_cons_self) nodes _ _)
  | first :: firsts, second :: seconds =>
    obtain ⟨ofFirst, ofLater⟩ := List.forall_mem_cons.mp ofFirsts
    obtain ⟨ofSecond, ofOthers⟩ := List.forall_mem_cons.mp ofSeconds
    rw [toList_shapesOfAll_cons, toList_shapesOfAll_cons] at same
    obtain ⟨sameForm, sameAfter⟩ := form_eq_of_shape first second ofFirst ofSecond
      (head_afterShape rest firsts) (head_afterShape other seconds) same
    -- What comes next tells whether the row goes on, by a space, or is closed.
    match firsts, seconds with
    | [], [] => exact ⟨congrArg (· :: []) sameForm, (List.cons.inj sameAfter).2⟩
    | [], node :: nodes => exact absurd (List.cons.inj sameAfter).1 (by decide)
    | node :: nodes, [] => exact absurd (List.cons.inj sameAfter).1 (by decide)
    | next :: firsts, otherNext :: seconds =>
      obtain ⟨sameForms, sameRest⟩ := formOfAll_eq_of_shapes (next :: firsts) (otherNext :: seconds)
        ofLater ofOthers (List.cons.inj sameAfter).2
      refine ⟨?_, sameRest⟩
      rw [formOfAll, sameForm, sameForms]
      rfl

end

end Node

/-! ### Trees -/

theorem unequal?_eq_none_iff {Value : Type} [DecidableEq Value] {write : Value → String}
    {subject : Option String} {left right : Value} :
    unequal? write subject left right = none ↔ left = right := by
  rw [unequal?]
  split <;> simp [*]

namespace Tree

/-- Two trees have the same shape just if they differ in the texts of their words only, if no tag and
no label is empty or has a space or a bracket. So a tree passes the check for the shape of another
one just if it has the same tags and labels in the same places. -/
theorem shapes_identify_forms {first second : Tree} (ofFirst : first.root.HasPlainSymbols)
    (ofSecond : second.root.HasPlainSymbols) :
    (first.shape = second.shape ↔ first.SameForm second) ∧
      (first.failure? (.shape second.shape) = none ↔ first.SameForm second) := by
  have ofShapes (same : first.shape = second.shape) : first.SameForm second := by
    have ends : ∀ char ∈ ([] : List Char).head?, char ∈ [' ', ']'] := nofun
    have sameRoot := Node.form_eq_of_shape first.root second.root ofFirst ofSecond ends ends
      (congrArg (· ++ []) (congrArg String.toList same))
    exact Node.phrase.inj sameRoot.1
  have identify : first.shape = second.shape ↔ first.SameForm second :=
    ⟨ofShapes, SameForm.shape_eq⟩
  exact ⟨identify, unequal?_eq_none_iff.trans identify⟩

/-- A word whose tag is the label of a phrase, before a phrase with that label and no children. -/
def wordThenPhrase : Tree :=
  ⟨"S", [.leaf ⟨"it", "NP"⟩, .phrase "NP" []]⟩

/-- The same, but the word is in the phrase. -/
def wordInPhrase : Tree :=
  ⟨"S", [.phrase "NP" [.leaf ⟨"she", "NP"⟩]]⟩

theorem shapes_identify_forms_wordThenPhrase :
    wordThenPhrase.root.HasPlainSymbols ∧ wordInPhrase.root.HasPlainSymbols ∧
      wordThenPhrase.shape ≠ wordInPhrase.shape ∧
      (wordThenPhrase.failure? (.shape wordInPhrase.shape)).isSome = true := by
  have ofFirst : wordThenPhrase.root.HasPlainSymbols := by decide
  have ofSecond : wordInPhrase.root.HasPlainSymbols := by decide
  have identify := shapes_identify_forms ofFirst ofSecond
  have differ : ¬wordThenPhrase.SameForm wordInPhrase := fun same => nomatch same.2
  exact ⟨ofFirst, ofSecond, fun same => differ (identify.1.mp same),
    Option.isSome_iff_ne_none.mpr fun passes => differ (identify.2.mp passes)⟩

example : wordThenPhrase.shape = "S[NP NP[]]" := by decide

example : wordInPhrase.shape = "S[NP[NP]]" := by decide

end Tree

end ShallowParse
