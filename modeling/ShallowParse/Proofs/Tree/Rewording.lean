/-
This file tells the form of a tree, which is its labels and tags, from the texts of its
words. Nodes of one form have the same symbol, number of words, height and shape, and
one of them becomes the other when its words are replaced one by one.
-/

import ShallowParse.Proofs.Tree.Descendants
import ShallowParse.Proofs.Tree.Height

namespace ShallowParse

namespace Node

/-! ### Forms -/

mutual

/-- A node whose words have lost their texts. -/
def form : Node → Node
  | leaf token => leaf { token with text := "" }
  | phrase label children => phrase label (formOfAll children)

def formOfAll : List Node → List Node
  | [] => []
  | node :: nodes => form node :: formOfAll nodes

end

theorem formOfAll_eq_map (nodes : List Node) : formOfAll nodes = nodes.map form :=
  eq_map_of_cons rfl (fun _ _ => rfl) nodes

theorem symbol_form (node : Node) : node.form.symbol = node.symbol := by
  cases node <;> rfl

mutual

theorem leafCount_form : (node : Node) → node.form.leafCount = node.leafCount
  | leaf _ => rfl
  | phrase _ children => leafCountOfAll_form children

theorem leafCountOfAll_form : (nodes : List Node) →
    leafCountOfAll (formOfAll nodes) = leafCountOfAll nodes
  | [] => rfl
  | node :: nodes => by
    rw [formOfAll, leafCountOfAll, leafCount_form node, leafCountOfAll_form nodes, leafCountOfAll]

end

mutual

theorem height_form : (node : Node) → node.form.height = node.height
  | leaf _ => rfl
  | phrase _ children => heightOfAll_form children

theorem heightOfAll_form : (nodes : List Node) → heightOfAll (formOfAll nodes) = heightOfAll nodes
  | [] => rfl
  | node :: nodes => by
    rw [formOfAll, heightOfAll, height_form node, heightOfAll_form nodes, heightOfAll]

end

mutual

theorem shape_form : (node : Node) → node.form.shape = node.shape
  | leaf _ => rfl
  | phrase label children => by
    rw [form, shape, shapesOfAll_form children, shape]

theorem shapesOfAll_form : (nodes : List Node) → shapesOfAll (formOfAll nodes) = shapesOfAll nodes
  | [] => rfl
  | [node] => shape_form node
  | node :: other :: nodes => by
    have ofOthers : shapesOfAll (formOfAll (other :: nodes)) = _ := shapesOfAll_form (other :: nodes)
    show shape (form node) ++ " " ++ shapesOfAll (formOfAll (other :: nodes)) = _
    rw [shape_form node, ofOthers]
    rfl

end

/-! ### Other words -/

mutual

/-- A node whose words take the texts that the words of a sentence have at the same places, given
the number of words before the node. -/
def reworded (sentence : List Token) (place : Nat) : Node → Node
  | leaf token => leaf { token with text := (sentence[place]?.map Token.text).getD token.text }
  | phrase label children => phrase label (rewordedAll sentence place children)

def rewordedAll (sentence : List Token) (place : Nat) : List Node → List Node
  | [] => []
  | node :: nodes =>
    reworded sentence place node :: rewordedAll sentence (place + node.leafCount) nodes

end

mutual

/-- A node with the words of another one of its form is that node. -/
theorem reworded_of_form : (node other : Node) → node.form = other.form →
    (before after : List Token) →
    reworded (before ++ other.leaves ++ after) before.length node = other
  | leaf token, leaf other, same, before, after => by
    rw [form, form, leaf.injEq, Token.mk.injEq] at same
    have isThere : (before ++ [other] ++ after)[before.length]? = some other := by
      rw [List.append_assoc, List.singleton_append, List.getElem?_append_right (Nat.le_refl _),
        Nat.sub_self, List.getElem?_cons_zero]
    rw [reworded, leaves, isThere, same.2]
    rfl
  | phrase label children, phrase otherLabel others, same, before, after => by
    rw [form, form, phrase.injEq] at same
    rw [reworded, leaves, rewordedAll_of_form children others same.2 before after, same.1]
  | leaf _, phrase _ _, same, _, _ => nomatch same
  | phrase _ _, leaf _, same, _, _ => nomatch same

theorem rewordedAll_of_form : (nodes others : List Node) → formOfAll nodes = formOfAll others →
    (before after : List Token) →
    rewordedAll (before ++ leavesOfAll others ++ after) before.length nodes = others
  | [], [], _, _, _ => rfl
  | node :: nodes, other :: others, same, before, after => by
    obtain ⟨sameFirst, sameRest⟩ := List.cons.inj same
    have sameWords : node.leafCount = other.leaves.length := by
      rw [length_leaves, ← leafCount_form, sameFirst, leafCount_form]
    have ofFirst := reworded_of_form node other sameFirst before (leavesOfAll others ++ after)
    have ofRest := rewordedAll_of_form nodes others sameRest (before ++ other.leaves) after
    rw [← List.append_assoc, List.append_assoc before] at ofFirst
    rw [List.append_assoc before, List.length_append, ← sameWords] at ofRest
    rw [rewordedAll, leavesOfAll, ofFirst, ofRest]
  | [], _ :: _, same, _, _ => nomatch same
  | _ :: _, [], same, _, _ => nomatch same

end

end Node

/-! ### Trees -/

namespace Tree

/-- A tree whose words take the texts that the words of a sentence have at the same places. -/
def reworded (tree : Tree) (sentence : List Token) : Tree :=
  { tree with children := Node.rewordedAll sentence 0 tree.children }

/-- Whether two trees differ in the texts of their words only. -/
def SameForm (first second : Tree) : Prop :=
  first.label = second.label ∧ Node.formOfAll first.children = Node.formOfAll second.children

theorem SameForm.reworded_eq {first second : Tree} (same : first.SameForm second) :
    first.reworded second.leaves = second := by
  have reworded := Node.rewordedAll_of_form _ _ same.2 [] []
  rw [List.nil_append, List.append_nil] at reworded
  show (⟨first.label, Node.rewordedAll (Node.leavesOfAll second.children) 0 first.children⟩ : Tree)
    = second
  rw [same.1]
  exact congrArg (Tree.mk second.label) reworded

theorem SameForm.shape_eq {first second : Tree} (same : first.SameForm second) :
    first.shape = second.shape := by
  show Node.shape (.phrase first.label first.children) =
    Node.shape (.phrase second.label second.children)
  rw [Node.shape, ← Node.shapesOfAll_form, same.1, same.2, Node.shapesOfAll_form, Node.shape]

theorem SameForm.height_eq {first second : Tree} (same : first.SameForm second) :
    first.height = second.height := by
  rw [Tree.height_eq, Tree.height_eq, ← Node.heightOfAll_form, same.2, Node.heightOfAll_form]

end Tree

end ShallowParse
