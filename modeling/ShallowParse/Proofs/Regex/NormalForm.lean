/-
This file proves that assembled expressions are in a normal form. Their rows and
alternatives are dissolved into one another, so putting one alternative together
again changes nothing, and alternatives that stay what they are when they are put
together can be put together in several steps.
-/

import ShallowParse.Proofs.Regex.Factoring

namespace ShallowParse.Regex

/-! ### Rows -/

/-- Whether an expression is an item of a row. -/
def isItem : Regex → Bool
  | empty | seq _ _ => false
  | _ => true

theorem append_empty (first : Regex) : first.append empty = first := by
  induction first with
  | seq item rest _ inductionHypothesis => exact congrArg (seq item) inductionHypothesis
  | _ => rfl

theorem append_of_isItem {item second : Regex} (isItem : item.isItem = true)
    (notEmpty : second ≠ empty) : item.append second = seq item second := by
  cases item with
  | empty => cases isItem
  | seq first rest => cases isItem
  | _ =>
    cases second with
    | empty => exact absurd rfl notEmpty
    | _ => rfl

theorem append_ne_empty (first : Regex) {second : Regex} (notEmpty : second ≠ empty) :
    first.append second ≠ empty := by
  cases first with
  | empty => exact notEmpty
  | seq item rest => exact Regex.noConfusion
  | _ =>
    rw [append_of_isItem rfl notEmpty]
    exact Regex.noConfusion

theorem append_eq_empty {first second : Regex} (isEmpty : first.append second = empty) :
    first = empty ∧ second = empty := by
  have secondEmpty : second = empty := by
    by_contra notEmpty
    exact append_ne_empty first notEmpty isEmpty
  rw [secondEmpty, append_empty] at isEmpty
  exact ⟨isEmpty, secondEmpty⟩

theorem append_assoc (first second third : Regex) :
    (first.append second).append third = first.append (second.append third) := by
  induction first with
  | empty => rfl
  | seq item rest _ inductionHypothesis => exact congrArg (seq item) inductionHypothesis
  | _ =>
    by_cases isEmpty : third = empty
    · rw [isEmpty, append_empty, append_empty]
    · rw [append_of_isItem rfl (append_ne_empty second isEmpty)]
      cases second with
      | empty => exact append_of_isItem rfl isEmpty
      | _ => rfl

theorem items_append (first second : Regex) :
    (first.append second).items = first.items ++ second.items := by
  induction first with
  | empty => rfl
  | seq item rest _ inductionHypothesis => exact congrArg (item :: ·) inductionHypothesis
  | _ => cases second <;> rfl

theorem items_inOrder {list : List Regex} (areItems : ∀ item ∈ list, item.isItem = true) :
    (inOrder list).items = list := by
  induction list with
  | nil => rfl
  | cons first others inductionHypothesis =>
    obtain ⟨isItem, areOthers⟩ := List.forall_mem_cons.mp areItems
    rw [inOrder, items_append, inductionHypothesis areOthers]
    cases first with
    | empty => cases isItem
    | seq item rest => cases isItem
    | _ => rfl

/-! ### Assembled expressions -/

/-- Whether rows and alternatives are dissolved into the rows and alternatives around them. -/
def isAssembled : Regex → Bool
  | seq first rest =>
    first.isItem && first.isAssembled && decide (rest ≠ empty) && rest.isAssembled
  | alt first second => first.isAssembled && second.isAssembled
  | _ => true

theorem isAssembled_seq {first rest : Regex} : (seq first rest).isAssembled = true ↔
    first.isItem = true ∧ first.isAssembled = true ∧ rest ≠ empty ∧ rest.isAssembled = true := by
  rw [isAssembled, Bool.and_eq_true_iff, Bool.and_eq_true_iff, Bool.and_eq_true_iff,
    decide_eq_true_iff, and_assoc, and_assoc]

/-- An assembled row is the row of its items. -/
theorem inOrder_items {row : Regex} (assembled : row.isAssembled = true) :
    inOrder row.items = row := by
  fun_induction items row with
  | case1 => rfl
  | case2 first rest inductionHypothesis =>
    obtain ⟨isItem, _, notEmpty, ofRest⟩ := isAssembled_seq.mp assembled
    rw [inOrder, inductionHypothesis ofRest, append_of_isItem isItem notEmpty]
  | case3 item => exact append_empty item

theorem isAssembled_of_mem_items {row : Regex} (assembled : row.isAssembled = true) :
    ∀ item ∈ row.items, item.isItem = true ∧ item.isAssembled = true := by
  fun_induction items row with
  | case1 => exact List.forall_mem_nil _
  | case2 first rest inductionHypothesis =>
    obtain ⟨isItem, ofFirst, _, ofRest⟩ := isAssembled_seq.mp assembled
    exact List.forall_mem_cons.mpr ⟨⟨isItem, ofFirst⟩, inductionHypothesis ofRest⟩
  | case3 item notEmpty noRow =>
    refine List.forall_mem_singleton.mpr ⟨?_, assembled⟩
    cases item with
    | empty => exact absurd rfl notEmpty
    | seq first rest => exact absurd rfl (noRow first rest)
    | _ => rfl

theorem isAssembled_of_mem_branches {regex : Regex} (assembled : regex.isAssembled = true) :
    ∀ branch ∈ regex.branches, branch.isAssembled = true := by
  fun_induction branches regex with
  | case1 first second ofFirst ofSecond =>
    rw [isAssembled, Bool.and_eq_true_iff] at assembled
    exact List.forall_mem_append.mpr ⟨ofFirst assembled.1, ofSecond assembled.2⟩
  | case2 branch => exact List.forall_mem_singleton.mpr assembled

theorem isAssembled_of_mem_flatMap {alternatives : List Regex}
    (assembled : ∀ regex ∈ alternatives, regex.isAssembled = true) :
    ∀ branch ∈ alternatives.flatMap branches, branch.isAssembled = true := by
  intro branch member
  obtain ⟨regex, isRegex, isBranch⟩ := List.mem_flatMap.mp member
  exact isAssembled_of_mem_branches (assembled regex isRegex) branch isBranch

theorem isAssembled_append {first second : Regex} (ofFirst : first.isAssembled = true)
    (ofSecond : second.isAssembled = true) : (first.append second).isAssembled = true := by
  by_cases isEmpty : second = empty
  · rwa [isEmpty, append_empty]
  · induction first with
    | empty => exact ofSecond
    | seq item rest _ inductionHypothesis =>
      obtain ⟨isItem, ofItem, _, ofRest⟩ := isAssembled_seq.mp ofFirst
      exact isAssembled_seq.mpr
        ⟨isItem, ofItem, append_ne_empty rest isEmpty, inductionHypothesis ofRest⟩
    | _ =>
      rw [append_of_isItem rfl isEmpty]
      exact isAssembled_seq.mpr ⟨rfl, ofFirst, isEmpty, ofSecond⟩

theorem isAssembled_inOrder {list : List Regex}
    (assembled : ∀ regex ∈ list, regex.isAssembled = true) :
    (inOrder list).isAssembled = true := by
  induction list with
  | nil => rfl
  | cons first others inductionHypothesis =>
    obtain ⟨ofFirst, ofOthers⟩ := List.forall_mem_cons.mp assembled
    exact isAssembled_append ofFirst (inductionHypothesis ofOthers)

theorem isAssembled_anyOf {list : List Regex}
    (assembled : ∀ regex ∈ list, regex.isAssembled = true) : (anyOf list).isAssembled = true := by
  fun_induction anyOf list with
  | case1 => rfl
  | case2 only => exact assembled only (List.mem_singleton_self only)
  | case3 first others severalOthers inductionHypothesis =>
    obtain ⟨ofFirst, ofOthers⟩ := List.forall_mem_cons.mp assembled
    exact Bool.and_eq_true_iff.mpr ⟨ofFirst, inductionHypothesis ofOthers⟩

theorem exists_branch_of_mem_beginning {alternatives : List Regex} {item : Regex}
    (member : item ∈ (beginningOf alternatives).flatten) :
    ∃ branch ∈ alternatives.flatMap branches, item ∈ branch.items := by
  by_cases noBranch : alternatives.flatMap branches = []
  · rw [beginningOf, rowsOf, noBranch] at member
    cases member
  · obtain ⟨branch, isBranch⟩ := List.exists_mem_of_ne_nil _ noBranch
    exact ⟨branch, isBranch, flatten_row isBranch ▸ List.mem_append_left _ member⟩

theorem isAssembled_either {alternatives : List Regex}
    (assembled : ∀ regex ∈ alternatives, regex.isAssembled = true) :
    (either alternatives).isAssembled = true := by
  have ofBranches := isAssembled_of_mem_flatMap assembled
  have ofItems : ∀ branch ∈ alternatives.flatMap branches, ∀ item ∈ branch.items,
      item.isAssembled = true := fun branch isBranch item member =>
    (isAssembled_of_mem_items (ofBranches branch isBranch) item member).2
  rw [either_eq]
  split
  · refine isAssembled_append (isAssembled_inOrder fun item member => ?_)
      (isAssembled_anyOf fun branch member => ?_)
    · obtain ⟨branch, isBranch, isItem⟩ := exists_branch_of_mem_beginning member
      exact ofItems branch isBranch item isItem
    · obtain ⟨rest, isRest, ofRest⟩ := List.mem_flatMap.mp member
      obtain ⟨row, isRow, rfl⟩ := List.mem_map.mp isRest
      obtain ⟨branch', isBranch, rfl⟩ := List.mem_map.mp isRow
      refine isAssembled_of_mem_branches (isAssembled_inOrder fun item isItem => ?_) branch ofRest
      exact ofItems branch' isBranch item (flatten_row isBranch ▸ List.mem_append_right _ isItem)
  · exact isAssembled_anyOf ofBranches

/-! ### Branches -/

theorem branches_of_mem_branches {regex : Regex} :
    ∀ branch ∈ regex.branches, branch.branches = [branch] := by
  fun_induction branches regex with
  | case1 first second ofFirst ofSecond => exact List.forall_mem_append.mpr ⟨ofFirst, ofSecond⟩
  | case2 branch noAlternatives =>
    refine List.forall_mem_singleton.mpr ?_
    rw [branches]
    exact noAlternatives

theorem branches_of_mem_flatMap {alternatives : List Regex} :
    ∀ branch ∈ alternatives.flatMap branches, branch.branches = [branch] := by
  intro branch member
  obtain ⟨regex, _, isBranch⟩ := List.mem_flatMap.mp member
  exact branches_of_mem_branches branch isBranch

theorem branches_anyOf {list : List Regex} (notEmpty : list ≠ [])
    (areBranches : ∀ branch ∈ list, branch.branches = [branch]) : (anyOf list).branches = list := by
  fun_induction anyOf list with
  | case1 => exact absurd rfl notEmpty
  | case2 only => exact areBranches only (List.mem_singleton_self only)
  | case3 first others severalOthers inductionHypothesis =>
    obtain ⟨ofFirst, ofOthers⟩ := List.forall_mem_cons.mp areBranches
    rw [branches, ofFirst, inductionHypothesis severalOthers ofOthers]
    rfl

theorem eq_of_branches_eq_singleton {regex only : Regex} (isOnly : regex.branches = [only]) :
    regex = only := by
  fun_cases branches regex with
  | case1 first second =>
    have several := congrArg List.length isOnly
    have ofFirst := List.length_pos_of_ne_nil first.branches_ne_nil
    have ofSecond := List.length_pos_of_ne_nil second.branches_ne_nil
    rw [branches, List.length_append, List.length_singleton] at several
    omega
  | case2 =>
    rw [branches] at isOnly
    · exact (List.cons.inj isOnly).1
    · assumption

/-- Alternatives with the same branches are the same. -/
theorem either_congr {alternatives others : List Regex}
    (sameBranches : alternatives.flatMap branches = others.flatMap branches) :
    either alternatives = either others := by
  rw [either, either, sameBranches]

/-! ### Alternatives that stay as they are -/

/-- Whether an expression is assembled and stays as it is as the only alternative. -/
def IsStable (regex : Regex) : Prop :=
  regex.isAssembled = true ∧ either [regex] = regex

theorem isStable_of_branch {regex : Regex} (assembled : regex.isAssembled = true)
    (isBranch : regex.branches = [regex]) : IsStable regex := by
  refine ⟨assembled, ?_⟩
  have only : [regex].flatMap branches = [regex] := by
    rw [List.flatMap_singleton, isBranch]
  have beginning : beginningOf [regex] = regex.pieces := by
    rw [beginningOf, rowsOf, only]
    rfl
  have rests : restsOf [regex] = [empty] := by
    rw [restsOf, beginning, rowsOf, only, List.map_singleton, List.map_singleton,
      List.drop_length]
    rfl
  rw [either_eq]
  split
  · rw [rests, beginning, ofPieces, flatten_pieces, inOrder_items assembled]
    exact append_empty regex
  · rw [only]
    rfl

theorem anyOf_ne_empty {list : List Regex} (notEmpty : list ≠ []) (several : list ≠ [empty]) :
    anyOf list ≠ empty := by
  cases list with
  | nil => exact absurd rfl notEmpty
  | cons first others =>
    cases others with
    | nil => exact fun isEmpty => several (congrArg (fun regex => [regex]) isEmpty)
    | cons second others => exact Regex.noConfusion

/-- If nothing is left of factored alternatives, all of them are the common beginning. -/
theorem rest_eq_empty {alternatives : List Regex} {branch : Regex}
    (isBranch : branch ∈ alternatives.flatMap branches)
    (isEmpty : anyOf ((restsOf alternatives).flatMap branches) = empty) :
    ofPieces (branch.pieces.drop (beginningOf alternatives).length) = empty := by
  have isRest : ofPieces (branch.pieces.drop (beginningOf alternatives).length) ∈
      restsOf alternatives := List.mem_map_of_mem (List.mem_map_of_mem isBranch)
  have within := List.sublist_flatten_of_mem (List.mem_map_of_mem (f := branches) isRest)
  have isOnly : (restsOf alternatives).flatMap branches = [empty] := by
    by_contra several
    refine anyOf_ne_empty ?_ several isEmpty
    exact flatMap_branches_ne_nil (List.ne_nil_of_mem isRest)
  rw [← List.flatMap_def, isOnly] at within
  refine eq_of_branches_eq_singleton (within.eq_of_length_le ?_)
  exact List.length_pos_of_ne_nil (branches_ne_nil _)

theorem ne_nil_of_mem_pieces {row : Regex} : ∀ piece ∈ row.pieces, piece ≠ [] := by
  rw [pieces]
  induction row.items with
  | nil => exact List.forall_mem_nil _
  | cons item others inductionHypothesis =>
    rw [List.foldr_cons]
    generalize others.foldr addPiece [] = pieces at inductionHypothesis
    fun_cases addPiece item pieces with
    | case1 next others pieces joins =>
      exact List.forall_mem_cons.mpr
        ⟨List.cons_ne_nil _ _, (List.forall_mem_cons.mp inductionHypothesis).2⟩
    | case2 next others pieces apart =>
      exact List.forall_mem_cons.mpr ⟨List.cons_ne_nil _ _, inductionHypothesis⟩
    | case3 pieces =>
      exact List.forall_mem_cons.mpr ⟨List.cons_ne_nil _ _, inductionHypothesis⟩

/-- Factored alternatives have a branch, and their common beginning has an item. -/
theorem exists_of_areFactored {alternatives : List Regex}
    (factored : areFactored alternatives = true) :
    ∃ branch ∈ alternatives.flatMap branches, 2 ≤ branch.pieces.length ∧
      ∃ item others, (beginningOf alternatives).flatten = item :: others := by
  obtain ⟨allLong, notEmpty⟩ := Bool.and_eq_true_iff.mp factored
  obtain ⟨piece, pieces, isBeginning⟩ :
      ∃ piece pieces, beginningOf alternatives = piece :: pieces :=
    List.exists_cons_of_ne_nil (by simpa using notEmpty)
  obtain ⟨branch, isBranch⟩ : ∃ branch, branch ∈ alternatives.flatMap branches := by
    refine List.exists_mem_of_ne_nil _ fun noBranch => ?_
    rw [beginningOf, rowsOf, noBranch] at isBeginning
    cases isBeginning
  have isRow : branch.pieces ∈ rowsOf alternatives := List.mem_map_of_mem isBranch
  have isFirst : piece ∈ beginningOf alternatives := isBeginning ▸ List.mem_cons_self
  have isPiece : piece ∈ branch.pieces :=
    (sharedBeginning_isPrefix (rowsOf alternatives) branch.pieces isRow).subset isFirst
  obtain ⟨item, others, rfl⟩ := List.exists_cons_of_ne_nil (ne_nil_of_mem_pieces piece isPiece)
  refine ⟨branch, isBranch, of_decide_eq_true (List.all_eq_true.mp allLong _ isRow), item,
    others ++ pieces.flatten, ?_⟩
  rw [isBeginning]
  rfl

/-- Factored alternatives are a row of several items. -/
theorem exists_seq_of_areFactored {alternatives : List Regex}
    (assembled : ∀ regex ∈ alternatives, regex.isAssembled = true)
    (factored : areFactored alternatives = true) :
    ∃ first rest, either alternatives = seq first rest := by
  obtain ⟨branch, isBranch, long, item, others, isBeginning⟩ := exists_of_areFactored factored
  have parted := flatten_row isBranch
  rw [isBeginning] at parted
  have areItems : ∀ item ∈ branch.items, item.isItem = true := fun item member =>
    (isAssembled_of_mem_items (isAssembled_of_mem_flatMap assembled branch isBranch) item member).1
  rw [parted, List.forall_mem_append, List.forall_mem_cons] at areItems
  obtain ⟨⟨isItem, areOthers⟩, areRest⟩ := areItems
  have ofBeginning : ofPieces (beginningOf alternatives) = item.append (inOrder others) := by
    rw [ofPieces, isBeginning, inOrder]
  rw [either_eq, if_pos factored, ofBeginning, append_assoc]
  refine ⟨item, _, append_of_isItem isItem fun isEmpty => ?_⟩
  -- Otherwise a branch would have this one item, and rows of one piece are not factored.
  obtain ⟨nothingElse, nothingLeft⟩ := append_eq_empty isEmpty
  have noOthers : others = [] := by
    rw [← items_inOrder areOthers, nothingElse]
    rfl
  have noRest : (branch.pieces.drop (beginningOf alternatives).length).flatten = [] := by
    rw [← items_inOrder areRest]
    exact congrArg items (rest_eq_empty isBranch nothingLeft)
  have onePiece : branch.pieces = [[item]] := by
    rw [pieces, parted, noOthers, noRest]
    rfl
  rw [onePiece] at long
  exact Nat.not_succ_le_self 1 long

/-- Alternatives that are put together stay as they are as the only alternative. -/
theorem isStable_either {alternatives : List Regex}
    (assembled : ∀ regex ∈ alternatives, regex.isAssembled = true) :
    IsStable (either alternatives) := by
  have ofEither := isAssembled_either assembled
  by_cases factored : areFactored alternatives = true
  · obtain ⟨first, rest, isRow⟩ := exists_seq_of_areFactored assembled factored
    exact isStable_of_branch ofEither (by rw [isRow]; rfl)
  · have unfactored : either alternatives = anyOf (alternatives.flatMap branches) := by
      rw [either_eq, if_neg factored]
    by_cases noBranch : alternatives.flatMap branches = []
    · rw [unfactored, noBranch]
      exact isStable_of_branch rfl rfl
    · refine ⟨ofEither, either_congr ?_⟩
      rw [List.flatMap_singleton, unfactored, branches_anyOf noBranch branches_of_mem_flatMap]

theorem isStable_append {first second : Regex} (ofFirst : IsStable first)
    (ofSecond : IsStable second) : IsStable (first.append second) := by
  have assembled := isAssembled_append ofFirst.1 ofSecond.1
  by_cases isEmpty : second = empty
  · rwa [isEmpty, append_empty]
  · cases first with
    | empty => exact ofSecond
    | seq item rest => exact isStable_of_branch assembled rfl
    | _ =>
      rw [append_of_isItem rfl isEmpty] at assembled ⊢
      exact isStable_of_branch assembled rfl

theorem isStable_inOrder {list : List Regex} (stable : ∀ regex ∈ list, IsStable regex) :
    IsStable (inOrder list) := by
  induction list with
  | nil => exact isStable_of_branch rfl rfl
  | cons first others inductionHypothesis =>
    obtain ⟨ofFirst, ofOthers⟩ := List.forall_mem_cons.mp stable
    exact isStable_append ofFirst (inductionHypothesis ofOthers)

theorem isStable_literal (text : List Char) : IsStable (literal text) := by
  refine isStable_inOrder fun regex member => ?_
  obtain ⟨wanted, _, rfl⟩ := List.mem_map.mp member
  exact isStable_of_branch rfl rfl

theorem isStable_repetition {body : Regex} (stable : IsStable body) (least : Nat)
    (most : Option Nat) : IsStable (repetition body least most) := by
  rw [repetition]
  generalize (if body.matchesOnlyEmpty then min least 1 else least) = least
  generalize (if body.matchesOnlyEmpty then some (min (most.getD 1) 1) else most) = most
  split
  · exact isStable_of_branch rfl rfl
  · split
    · exact stable
    · split <;> exact isStable_of_branch rfl rfl

/-! ### Alternatives inside alternatives -/

/-- Whether some alternatives, put together, are still these alternatives to the ones around them. -/
def areKept (alternatives : List Regex) : Bool :=
  decide ((either alternatives).branches = alternatives.flatMap branches)

/-- Alternatives that are kept may be put together in several steps. -/
theorem either_either (before after : List Regex) {inner : List Regex}
    (kept : areKept inner = true) :
    either (before ++ either inner :: after) = either (before ++ inner ++ after) := by
  apply either_congr
  rw [List.flatMap_append, List.flatMap_cons, of_decide_eq_true kept, List.flatMap_append,
    List.flatMap_append, List.append_assoc]

end ShallowParse.Regex
