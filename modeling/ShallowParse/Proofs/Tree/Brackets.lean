/-
This file proves that trees can be told apart by their lines, in which phrases stand between
parentheses. The text of a word may hold slashes and parentheses itself, but its last slash
parts it from the tag, and a phrase begins without a slash. The parentheses that close phrases
stick to the last word or label before them, so the induction over the nodes keeps apart what
a node is written as and what follows it: closing parentheses, and then a space or nothing.
-/

import ShallowParse.Format
import ShallowParse.Proofs.Tagged.Slashed
import ShallowParse.Proofs.Text.Stretches
import ShallowParse.Proofs.Tree.Descendants

namespace ShallowParse

namespace Node

/-! ### What follows a node -/

/-- Whether a text can follow a node on its line: some phrases are closed, and then a space comes or
nothing. -/
def Follows (rest : List Char) : Prop :=
  ∃ count after, rest = List.replicate count ')' ++ after ∧ ∀ char ∈ after.head?, char = ' '

namespace Follows

theorem nil : Follows [] := ⟨0, [], rfl, nofun⟩

theorem space (rest : List Char) : Follows (' ' :: rest) :=
  ⟨0, ' ' :: rest, rfl, fun _ isFirst => (Option.some.inj isFirst).symm⟩

theorem close {rest : List Char} (follows : Follows rest) : Follows (')' :: rest) := by
  obtain ⟨count, after, rfl, ends⟩ := follows
  exact ⟨count + 1, after, rfl, ends⟩

/-- What follows a node begins with a sign that no name has. -/
theorem head {rest : List Char} (follows : Follows rest) :
    ∀ char ∈ rest.head?, char ∈ [' ', ')'] := by
  obtain ⟨count, after, rfl, ends⟩ := follows
  cases count with
  | zero => exact fun char isFirst => List.mem_cons.mpr (Or.inl (ends char isFirst))
  | succ count =>
    rintro char ⟨⟩
    decide

end Follows

/-! ### Ordinary names -/

/-- Whether a name has no space, no slash and no parenthesis. -/
def IsOrdinaryName (name : String) : Prop :=
  ∀ sign ∈ [' ', '/', '(', ')'], sign ∉ name.toList

instance (name : String) : Decidable (IsOrdinaryName name) :=
  List.decidableBAll (· ∉ name.toList) [' ', '/', '(', ')']

/-- Whether the tag or the label of a node is ordinary. The text of a word need only be free of
spaces. -/
def HasOrdinaryNames : Node → Prop
  | leaf token => ' ' ∉ token.text.toList ∧ IsOrdinaryName token.tag
  | phrase label _ => IsOrdinaryName label

instance : (node : Node) → Decidable node.HasOrdinaryNames
  | leaf token => inferInstanceAs (Decidable (' ' ∉ token.text.toList ∧ IsOrdinaryName token.tag))
  | phrase label _ => inferInstanceAs (Decidable (IsOrdinaryName label))

/-- Whether all names from a node on down are ordinary. -/
def IsOrdinary (node : Node) : Prop :=
  ∀ below ∈ node.withDescendants, below.HasOrdinaryNames

instance (node : Node) : Decidable node.IsOrdinary :=
  inferInstanceAs (Decidable (∀ below ∈ node.withDescendants, _))

theorem IsOrdinaryName.notMem {name : String} (isOrdinary : IsOrdinaryName name)
    {signs : List Char} (areSigns : signs ⊆ [' ', '/', '(', ')']) :
    ∀ sign ∈ signs, sign ∉ name.toList :=
  fun sign isSign => isOrdinary sign (areSigns isSign)

/-! ### Lines -/

theorem toList_written_phrase (label : String) (children : List Node) (rest : List Char) :
    (phrase label children).written.toList ++ rest =
      '(' :: (label.toList ++ ((writtenAll children).toList ++ ')' :: rest)) := by
  simp [written]

theorem toList_writtenAll_cons (node : Node) (nodes : List Node) (rest : List Char) :
    (writtenAll (node :: nodes)).toList ++ rest =
      ' ' :: (node.written.toList ++ ((writtenAll nodes).toList ++ rest)) := by
  simp [writtenAll]

theorem follows_writtenAll (nodes : List Node) {rest : List Char} (follows : Follows rest) :
    Follows ((writtenAll nodes).toList ++ ')' :: rest) := by
  cases nodes with
  | nil => exact follows.close
  | cons node nodes =>
    rw [toList_writtenAll_cons]
    exact Follows.space _

/-! ### Words -/

/-- A text without a space is told from what follows it, but for the closing parentheses that stick to
it. -/
theorem Follows.sameRun {first second rest other : List Char} (follows : Follows rest)
    (otherFollows : Follows other) (noSpace : ' ' ∉ first) (otherNoSpace : ' ' ∉ second)
    (same : first ++ rest = second ++ other) :
    ∃ closings otherClosings after, rest = List.replicate closings ')' ++ after ∧
      other = List.replicate otherClosings ')' ++ after ∧
      first ++ List.replicate closings ')' = second ++ List.replicate otherClosings ')' := by
  obtain ⟨closings, after, rfl, ends⟩ := follows
  obtain ⟨otherClosings, otherAfter, rfl, otherEnds⟩ := otherFollows
  have noSpaceIn {text : List Char} (noSpace : ' ' ∉ text) (count : Nat) :
      ∀ stop ∈ [' '], stop ∉ text ++ List.replicate count ')' :=
    List.forall_mem_singleton.mpr (List.not_mem_append noSpace (by simp))
  rw [← List.append_assoc, ← List.append_assoc] at same
  obtain ⟨sameRun, rfl⟩ := Text.eq_of_stops (noSpaceIn noSpace closings)
    (noSpaceIn otherNoSpace otherClosings)
    (fun char isFirst => List.mem_singleton.mpr (ends char isFirst))
    (fun char isFirst => List.mem_singleton.mpr (otherEnds char isFirst)) same
  exact ⟨closings, otherClosings, after, rfl, rfl, sameRun⟩

theorem notMem_space_written {token : Token} (ordinary : (leaf token).HasOrdinaryNames) :
    ' ' ∉ token.written.toList := by
  rw [Token.toList_written]
  refine List.not_mem_append ordinary.1 ?_
  rw [List.mem_cons, not_or]
  exact ⟨by decide, ordinary.2 ' ' (by decide)⟩

theorem splitAtLastSlash?_closed {token : Token} (ordinary : (leaf token).HasOrdinaryNames)
    (count : Nat) :
    splitAtLastSlash? (token.written.toList ++ List.replicate count ')') =
      some (token.text.toList, token.tag.toList ++ List.replicate count ')') := by
  rw [splitAtLastSlash?_eq_some_iff, Token.toList_written, List.append_assoc, List.cons_append]
  exact ⟨rfl, List.not_mem_append (ordinary.2 '/' (by decide)) (by simp)⟩

theorem head_replicate (count : Nat) : ∀ char ∈ (List.replicate count ')').head?, char ∈ [')'] :=
  fun _ isFirst => List.mem_singleton.mpr
    (List.eq_of_mem_replicate (List.mem_of_mem_head? isFirst))

/-- A word is told from what follows it by its last slash, after which its tag goes on to the first
closing parenthesis. -/
theorem token_eq_of_written {first second : Token} (ofFirst : (leaf first).HasOrdinaryNames)
    (ofSecond : (leaf second).HasOrdinaryNames) {rest other : List Char} (follows : Follows rest)
    (otherFollows : Follows other)
    (same : first.written.toList ++ rest = second.written.toList ++ other) :
    first = second ∧ rest = other := by
  obtain ⟨closings, otherClosings, after, rfl, rfl, sameRun⟩ := follows.sameRun otherFollows
    (notMem_space_written ofFirst) (notMem_space_written ofSecond) same
  have sameParts := congrArg splitAtLastSlash? sameRun
  rw [splitAtLastSlash?_closed ofFirst, splitAtLastSlash?_closed ofSecond, Option.some.injEq,
    Prod.mk.injEq, String.toList_inj] at sameParts
  obtain ⟨sameTag, sameClosings⟩ := Text.eq_of_stops (ofFirst.2.notMem (by decide))
    (ofSecond.2.notMem (by decide)) (head_replicate closings) (head_replicate otherClosings)
    sameParts.2
  refine ⟨?_, by rw [sameClosings]⟩
  cases first
  cases second
  rw [Token.mk.injEq]
  exact ⟨sameParts.1, String.toList_inj.mp sameTag⟩

/-- A phrase begins without a slash, and a word does not. -/
theorem written_leaf_ne_phrase {token : Token} (ofToken : (leaf token).HasOrdinaryNames)
    {label : String} (ofLabel : IsOrdinaryName label) {children : List Node}
    {rest other : List Char} (follows : Follows rest) (otherFollows : Follows other) :
    token.written.toList ++ rest ≠ (phrase label children).written.toList ++ other := by
  intro same
  have noSign : ∀ sign ∈ [' ', '/'], sign ∉ '(' :: label.toList := by
    intro sign isSign
    rw [List.mem_cons, not_or]
    exact ⟨fun isOpening => absurd (isOpening ▸ isSign) (by decide),
      ofLabel.notMem (by decide) sign isSign⟩
  rw [toList_written_phrase, ← List.cons_append] at same
  obtain ⟨closings, otherClosings, _, _, _, sameRun⟩ := follows.sameRun
    (follows_writtenAll children otherFollows) (notMem_space_written ofToken)
    (noSign ' ' (by decide)) same
  -- Up to the first space there is a slash in the word, but only the label in the phrase.
  have isSlash : '/' ∈ token.written.toList ++ List.replicate closings ')' := by
    rw [Token.toList_written]
    simp
  rw [sameRun] at isSlash
  exact List.not_mem_append (noSign '/' (by decide)) (by simp) isSlash

/-! ### All nodes -/

mutual

/-- What a node is written as determines the node, and where it ends. -/
theorem eq_of_written (first second : Node) (ofFirst : first.IsOrdinary)
    (ofSecond : second.IsOrdinary) {rest other : List Char} (follows : Follows rest)
    (otherFollows : Follows other)
    (same : first.written.toList ++ rest = second.written.toList ++ other) :
    first = second ∧ rest = other := by
  match first, second with
  | leaf token, leaf other =>
    obtain ⟨rfl, sameRest⟩ := token_eq_of_written (ofFirst _ (List.mem_singleton_self _))
      (ofSecond _ (List.mem_singleton_self _)) follows otherFollows same
    exact ⟨rfl, sameRest⟩
  | leaf token, phrase label children =>
    exact absurd same (written_leaf_ne_phrase (ofFirst _ (List.mem_singleton_self _))
      (forall_mem_withDescendants_phrase.mp ofSecond).1 follows otherFollows)
  | phrase label children, leaf token =>
    exact absurd same.symm (written_leaf_ne_phrase (ofSecond _ (List.mem_singleton_self _))
      (forall_mem_withDescendants_phrase.mp ofFirst).1 otherFollows follows)
  | phrase label children, phrase otherLabel others =>
    obtain ⟨ofLabel, ofChildren⟩ := forall_mem_withDescendants_phrase.mp ofFirst
    obtain ⟨ofOtherLabel, ofOthers⟩ := forall_mem_withDescendants_phrase.mp ofSecond
    rw [toList_written_phrase, toList_written_phrase] at same
    obtain ⟨sameLabel, sameRow⟩ := Text.eq_of_stops
      (IsOrdinaryName.notMem ofLabel (by decide)) (IsOrdinaryName.notMem ofOtherLabel (by decide))
      (follows_writtenAll children follows).head (follows_writtenAll others otherFollows).head
      (List.cons.inj same).2
    obtain ⟨rfl, sameRest⟩ :=
      eq_of_writtenAll children others ofChildren ofOthers follows otherFollows sameRow
    rw [String.toList_inj] at sameLabel
    exact ⟨congrArg (phrase · children) sameLabel, sameRest⟩

theorem eq_of_writtenAll (firsts seconds : List Node) (ofFirsts : ∀ node ∈ firsts, node.IsOrdinary)
    (ofSeconds : ∀ node ∈ seconds, node.IsOrdinary) {rest other : List Char}
    (follows : Follows rest) (otherFollows : Follows other)
    (same : (writtenAll firsts).toList ++ ')' :: rest = (writtenAll seconds).toList ++ ')' :: other) :
    firsts = seconds ∧ rest = other := by
  match firsts, seconds with
  | [], [] => exact ⟨rfl, (List.cons.inj same).2⟩
  | [], node :: nodes =>
    rw [toList_writtenAll_cons] at same
    exact absurd (List.cons.inj same).1 (by decide)
  | node :: nodes, [] =>
    rw [toList_writtenAll_cons] at same
    exact absurd (List.cons.inj same).1 (by decide)
  | first :: firsts, second :: seconds =>
    obtain ⟨ofFirst, ofLater⟩ := List.forall_mem_cons.mp ofFirsts
    obtain ⟨ofSecond, ofOthers⟩ := List.forall_mem_cons.mp ofSeconds
    rw [toList_writtenAll_cons, toList_writtenAll_cons] at same
    obtain ⟨rfl, sameRow⟩ := eq_of_written first second ofFirst ofSecond
      (follows_writtenAll firsts follows) (follows_writtenAll seconds otherFollows)
      (List.cons.inj same).2
    obtain ⟨rfl, sameRest⟩ :=
      eq_of_writtenAll firsts seconds ofLater ofOthers follows otherFollows sameRow
    exact ⟨rfl, sameRest⟩

end

end Node

namespace Tree

/-! ### Trees -/

theorem eq_of_root {first second : Tree} (same : first.root = second.root) : first = second := by
  cases first
  cases second
  rw [Tree.mk.injEq]
  exact Node.phrase.inj same

/-- Two trees are written alike only if they are equal, whatever slashes and parentheses stand in
their words, if no text, tag or label has a space and no tag or label has a slash or a parenthesis.
Names may be empty, and so may phrases. -/
theorem brackets_are_unambiguous {first second : Tree} (ofFirst : first.root.IsOrdinary)
    (ofSecond : second.root.IsOrdinary) :
    (first.written = second.written ↔ first = second) ∧
      (Format.bracket.write first = Format.bracket.write second ↔ first = second) := by
  have ofLines (same : first.written = second.written) : first = second := by
    have sameRoot := Node.eq_of_written first.root second.root ofFirst ofSecond
      Node.Follows.nil Node.Follows.nil (congrArg (· ++ []) (congrArg String.toList same))
    exact eq_of_root sameRoot.1
  refine ⟨⟨ofLines, congrArg written⟩, fun same => ofLines ?_, congrArg Format.bracket.write⟩
  exact (String.append_left_inj "\n").mp (Except.ok.inj same)

/-- A word that looks like the beginning of a phrase, an empty phrase, and a word that looks as if it
closed one. -/
def parentheses : Tree :=
  ⟨"S", [.leaf ⟨"(NP", "X"⟩, .phrase "NP" [], .leaf ⟨"a/b)", ""⟩]⟩

/-- The same with the last word in the phrase. -/
def moreParentheses : Tree :=
  ⟨"S", [.leaf ⟨"(NP", "X"⟩, .phrase "NP" [.leaf ⟨"a/b)", ""⟩]]⟩

theorem brackets_are_unambiguous_parentheses :
    parentheses.root.IsOrdinary ∧ moreParentheses.root.IsOrdinary ∧
      parentheses.written ≠ moreParentheses.written := by
  have ofFirst : parentheses.root.IsOrdinary := by decide
  have ofSecond : moreParentheses.root.IsOrdinary := by decide
  refine ⟨ofFirst, ofSecond, fun same => ?_⟩
  have sameTree := (brackets_are_unambiguous ofFirst ofSecond).1.mp same
  exact absurd (congrArg (·.children.length) sameTree) (by decide)

example : parentheses.written = "(S (NP/X (NP) a/b)/)" := by decide

example : moreParentheses.written = "(S (NP/X (NP a/b)/))" := by decide

end Tree

end ShallowParse
