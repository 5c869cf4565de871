/-
This file proves what factoring alternatives does to the ways in which they match.
The ways stay the same, and so does their order if the common beginning always
takes the same number of symbols. Otherwise the order may change: the beginning is
then settled before the alternative is.
-/

import ShallowParse.Proofs.Regex.Places

namespace ShallowParse.Regex

/-! ### Places along a row -/

theorem moves_append {source target : Place} {first second : Regex} :
    Moves source (first.append second) target ↔
      ∃ middle, Moves source first middle ∧ Moves middle second target := by
  fun_induction append first second generalizing source with
  | case1 second =>
    constructor
    · exact fun moves => ⟨source, Moves.empty source, moves⟩
    · rintro ⟨_, ⟨⟩, moves⟩
      exact moves
  | case2 first rest second inductionHypothesis =>
    constructor
    · intro moves
      cases moves with
      | seq ofFirst ofRest =>
        obtain ⟨middle, inRest, ofSecond⟩ := inductionHypothesis.mp ofRest
        exact ⟨middle, ofFirst.seq inRest, ofSecond⟩
    · rintro ⟨middle, moves, ofSecond⟩
      cases moves with
      | seq ofFirst ofRest => exact ofFirst.seq (inductionHypothesis.mpr ⟨middle, ofRest, ofSecond⟩)
  | case3 first =>
    constructor
    · exact fun moves => ⟨target, moves, Moves.empty target⟩
    · rintro ⟨_, moves, ⟨⟩⟩
      exact moves
  | case4 first second =>
    constructor
    · intro moves
      cases moves with
      | seq ofFirst ofSecond => exact ⟨_, ofFirst, ofSecond⟩
    · rintro ⟨_, ofFirst, ofSecond⟩
      exact ofFirst.seq ofSecond

theorem moves_inOrder_append {source target : Place} {before after : List Regex} :
    Moves source (inOrder (before ++ after)) target ↔
      ∃ middle, Moves source (inOrder before) middle ∧ Moves middle (inOrder after) target := by
  induction before generalizing source with
  | nil =>
    constructor
    · exact fun moves => ⟨source, Moves.empty source, moves⟩
    · rintro ⟨_, ⟨⟩, moves⟩
      exact moves
  | cons first others inductionHypothesis =>
    simp only [List.cons_append, inOrder, moves_append, inductionHypothesis]
    constructor
    · rintro ⟨place, ofFirst, middle, ofOthers, ofAfter⟩
      exact ⟨middle, ⟨place, ofFirst, ofOthers⟩, ofAfter⟩
    · rintro ⟨middle, ⟨place, ofFirst, ofOthers⟩, ofAfter⟩
      exact ⟨place, ofFirst, middle, ofOthers, ofAfter⟩

/-- A row of expressions that lead back to where they begin does so, too. -/
theorem moves_inOrder {place : Place} {regexes : List Regex}
    (moves : ∀ regex ∈ regexes, Moves place regex place) : Moves place (inOrder regexes) place := by
  induction regexes with
  | nil => exact Moves.empty place
  | cons first others inductionHypothesis =>
    obtain ⟨ofFirst, ofOthers⟩ := List.forall_mem_cons.mp moves
    exact moves_append.mpr ⟨place, ofFirst, inductionHypothesis ofOthers⟩

theorem moves_inOrder_items {source target : Place} {row : Regex} :
    Moves source (inOrder row.items) target ↔ Moves source row target := by
  fun_induction items row generalizing source with
  | case1 => rfl
  | case2 first rest inductionHypothesis =>
    rw [inOrder, moves_append]
    constructor
    · rintro ⟨middle, ofFirst, ofRest⟩
      exact ofFirst.seq (inductionHypothesis.mp ofRest)
    · intro moves
      cases moves with
      | seq ofFirst ofRest => exact ⟨_, ofFirst, inductionHypothesis.mpr ofRest⟩
  | case3 item =>
    rw [inOrder, moves_append]
    constructor
    · rintro ⟨_, moves, ⟨⟩⟩
      exact moves
    · exact fun moves => ⟨target, moves, Moves.empty target⟩

/-- An expression leads to one place only. -/
theorem Moves.target_eq {source target target' : Place} {regex : Regex}
    (moves : Moves source regex target) (moves' : Moves source regex target') :
    target = target' := by
  induction moves generalizing target' with
  | empty place => cases moves'; rfl
  | opening => cases moves'; rfl
  | letter taken noClosing =>
    cases moves' with
    | letter => rfl
    | closing => exact absurd rfl noClosing
  | closing taken =>
    cases moves' with
    | letter _ noClosing => exact absurd rfl noClosing
    | closing => rfl
  | closingTail => cases moves'; rfl
  | others taken => cases moves'; rfl
  | seq ofFirst ofSecond inFirst inSecond =>
    cases moves' with
    | seq ofFirst' ofSecond' =>
      cases inFirst ofFirst'
      exact inSecond ofSecond'
  | alt ofFirst ofSecond inFirst inSecond =>
    cases moves' with
    | alt ofFirst' ofSecond' => exact inFirst ofFirst'
  | star ofBody inBody => cases moves'; rfl
  | repeated least copies ofBody inBody => cases moves'; rfl

/-! ### Places along alternatives -/

theorem moves_branches {source target : Place} {regex : Regex} :
    (∀ branch ∈ regex.branches, Moves source branch target) ↔ Moves source regex target := by
  fun_induction branches regex with
  | case1 first second ofFirst ofSecond =>
    rw [List.forall_mem_append, ofFirst, ofSecond]
    constructor
    · rintro ⟨inFirst, inSecond⟩
      exact inFirst.alt inSecond
    · intro moves
      cases moves with
      | alt inFirst inSecond => exact ⟨inFirst, inSecond⟩
  | case2 branch => exact List.forall_mem_singleton

theorem moves_anyOf {source target : Place} {regexes : List Regex} (some : regexes ≠ [])
    (moves : ∀ regex ∈ regexes, Moves source regex target) :
    Moves source (anyOf regexes) target := by
  fun_induction anyOf regexes with
  | case1 => exact absurd rfl some
  | case2 only => exact moves only (List.mem_singleton_self only)
  | case3 first others severalOthers inductionHypothesis =>
    obtain ⟨ofFirst, ofOthers⟩ := List.forall_mem_cons.mp moves
    exact ofFirst.alt (inductionHypothesis severalOthers ofOthers)

/-! ### Factoring -/

/-- The rows that the alternatives are, each in its pieces. -/
def rowsOf (alternatives : List Regex) : List (List (List Regex)) :=
  (alternatives.flatMap branches).map pieces

/-- What all rows of the alternatives begin with. -/
def beginningOf (alternatives : List Regex) : List (List Regex) :=
  sharedBeginning (rowsOf alternatives)

/-- Whether the alternatives are factored. -/
def areFactored (alternatives : List Regex) : Bool :=
  (rowsOf alternatives).all (2 ≤ ·.length) && !(beginningOf alternatives).isEmpty

/-- The rows of the alternatives after their common beginning. -/
def restsOf (alternatives : List Regex) : List Regex :=
  (rowsOf alternatives).map fun row => ofPieces (row.drop (beginningOf alternatives).length)

/-- Whether at most one end of the common beginning lets any rest match, if the alternatives are
factored. -/
def AreSettled (alternatives : List Regex) : Prop :=
  areFactored alternatives = true → ∀ symbols : List String,
    ∀ left ∈ (ofPieces (beginningOf alternatives)).ways (SymbolText.written symbols),
    ∀ left' ∈ (ofPieces (beginningOf alternatives)).ways (SymbolText.written symbols),
      (∃ rest ∈ restsOf alternatives, rest.ways left ≠ []) →
      (∃ rest ∈ restsOf alternatives, rest.ways left' ≠ []) → left = left'

theorem either_eq (alternatives : List Regex) :
    either alternatives =
      if areFactored alternatives then
        (ofPieces (beginningOf alternatives)).append
          (anyOf ((restsOf alternatives).flatMap branches))
      else anyOf (alternatives.flatMap branches) := by
  rw [restsOf, List.flatMap_map]
  rfl

/-- A row of the alternatives is the common beginning and then its rest. -/
theorem flatten_row {alternatives : List Regex} {branch : Regex}
    (member : branch ∈ alternatives.flatMap branches) :
    branch.items = (beginningOf alternatives).flatten ++
      (branch.pieces.drop (beginningOf alternatives).length).flatten := by
  have isRow : branch.pieces ∈ rowsOf alternatives := List.mem_map_of_mem member
  have parted := List.prefix_iff_eq_append.mp
    (sharedBeginning_isPrefix (rowsOf alternatives) branch.pieces isRow)
  rw [← flatten_pieces, ← List.flatten_append]
  exact congrArg List.flatten parted.symm

theorem flatMap_branches_ne_nil {alternatives : List Regex} (some : alternatives ≠ []) :
    alternatives.flatMap branches ≠ [] := by
  obtain ⟨first, others, rfl⟩ := List.exists_cons_of_ne_nil some
  rw [List.flatMap_cons]
  exact List.append_ne_nil_of_left_ne_nil first.branches_ne_nil _

/-- The common beginning of alternatives that lead from one place to another leads to a place
between, and each rest from there on. -/
theorem exists_middle {source target : Place} {alternatives : List Regex}
    (some : alternatives ≠ [])
    (moves : ∀ regex ∈ alternatives, Moves source regex target) :
    ∃ middle, Moves source (ofPieces (beginningOf alternatives)) middle ∧
      ∀ rest ∈ restsOf alternatives, Moves middle rest target := by
  have parts : ∀ branch ∈ alternatives.flatMap branches,
      ∃ middle, Moves source (ofPieces (beginningOf alternatives)) middle ∧
        Moves middle (ofPieces (branch.pieces.drop (beginningOf alternatives).length)) target := by
    intro branch member
    obtain ⟨regex, isRegex, isBranch⟩ := List.mem_flatMap.mp member
    have ofBranch := moves_branches.mpr (moves regex isRegex) branch isBranch
    rw [← moves_inOrder_items, flatten_row member] at ofBranch
    exact moves_inOrder_append.mp ofBranch
  obtain ⟨first, isFirst⟩ := List.exists_mem_of_ne_nil _ (flatMap_branches_ne_nil some)
  obtain ⟨middle, ofBeginning, _⟩ := parts first isFirst
  refine ⟨middle, ofBeginning, fun rest member => ?_⟩
  obtain ⟨row, isRow, rfl⟩ := List.mem_map.mp member
  obtain ⟨branch, isBranch, rfl⟩ := List.mem_map.mp isRow
  obtain ⟨middle', ofBeginning', ofRest⟩ := parts branch isBranch
  rwa [ofBeginning.target_eq ofBeginning']

theorem restsOf_ne_nil {alternatives : List Regex} (some : alternatives ≠ []) :
    restsOf alternatives ≠ [] := by
  simpa [restsOf, rowsOf] using flatMap_branches_ne_nil some

theorem moves_either {source target : Place} {alternatives : List Regex}
    (some : alternatives ≠ []) (moves : ∀ regex ∈ alternatives, Moves source regex target) :
    Moves source (either alternatives) target := by
  rw [either_eq]
  split
  · obtain ⟨middle, ofBeginning, ofRests⟩ := exists_middle some moves
    refine moves_append.mpr ⟨middle, ofBeginning, ?_⟩
    refine moves_anyOf (flatMap_branches_ne_nil (restsOf_ne_nil some)) fun branch member => ?_
    obtain ⟨rest, isRest, isBranch⟩ := List.mem_flatMap.mp member
    exact moves_branches.mpr (ofRests rest isRest) branch isBranch
  · refine moves_anyOf (flatMap_branches_ne_nil some) fun branch member => ?_
    obtain ⟨regex, isRegex, isBranch⟩ := List.mem_flatMap.mp member
    exact moves_branches.mpr (moves regex isRegex) branch isBranch

theorem ways_anyOf_branches {regexes : List Regex} (some : regexes ≠ []) (text : List Char) :
    (anyOf (regexes.flatMap branches)).ways text =
      regexes.flatMap fun regex => regex.ways text := by
  rw [ways_anyOf _ (flatMap_branches_ne_nil some), List.flatMap_assoc]
  exact List.flatMap_congr fun regex _ => ways_branches regex text

/-- The alternatives match in the ways of the common beginning with each rest in turn. -/
theorem ways_of_rests (alternatives : List Regex) (text : List Char) :
    (alternatives.flatMap fun regex => regex.ways text) =
      ((restsOf alternatives).map Regex.ways).flatMap fun goOn =>
        ((ofPieces (beginningOf alternatives)).ways text).flatMap goOn := by
  have ofBranches : (alternatives.flatMap fun regex => regex.ways text) =
      (alternatives.flatMap branches).flatMap fun branch => branch.ways text := by
    rw [List.flatMap_assoc]
    exact List.flatMap_congr fun regex _ => (ways_branches regex text).symm
  rw [ofBranches, restsOf, rowsOf, List.flatMap_map, List.flatMap_map, List.flatMap_map]
  refine List.flatMap_congr fun branch member => ?_
  rw [← ways_inOrder_items, flatten_row member, ways_inOrder_append]
  rfl

/-- The ways of factored alternatives compare with those of the alternatives in turn. -/
theorem ways_either (comparison : Ways.Comparison (List Char)) {alternatives : List Regex}
    (some : alternatives ≠ []) (text : List Char)
    (exchanges : areFactored alternatives = true →
      comparison.Exchanges ((ofPieces (beginningOf alternatives)).ways text)
        ((restsOf alternatives).map Regex.ways)) :
    comparison.holds ((either alternatives).ways text)
      (alternatives.flatMap fun regex => regex.ways text) := by
  rw [either_eq]
  split
  · rename_i factored
    have ofRests : (anyOf ((restsOf alternatives).flatMap branches)).ways = fun text =>
        ((restsOf alternatives).map Regex.ways).flatMap fun goOn => goOn text := by
      funext text
      rw [ways_anyOf_branches (restsOf_ne_nil some), List.flatMap_map]
    rw [ways_append, ofRests, ways_of_rests]
    exact exchanges factored
  · rw [ways_anyOf_branches some]
    exact comparison.refl _

/-- Settled alternatives keep the order. -/
theorem AreSettled.exchanges (comparison : Ways.Comparison (List Char)) {alternatives : List Regex}
    (settled : AreSettled alternatives) (symbols : List String)
    (factored : areFactored alternatives = true) :
    comparison.Exchanges
      ((ofPieces (beginningOf alternatives)).ways (SymbolText.written symbols))
      ((restsOf alternatives).map Regex.ways) := by
  refine comparison.exchanges_of_only fun left isLeft left' isLeft' goes goes' => ?_
  have ofRest {text : List Char}
      (goes : ∃ goOn ∈ (restsOf alternatives).map Regex.ways, goOn text ≠ []) :
      ∃ rest ∈ restsOf alternatives, rest.ways text ≠ [] := by
    obtain ⟨_, isWay, goesOn⟩ := goes
    obtain ⟨rest, isRest, rfl⟩ := List.mem_map.mp isWay
    exact ⟨rest, isRest, goesOn⟩
  exact settled factored symbols left isLeft left' isLeft' (ofRest goes) (ofRest goes')

/-- Alternatives for whole symbols are settled if their common beginning always takes the same
number of symbols. -/
theorem areSettled_of_width {alternatives : List Regex} (some : alternatives ≠ [])
    (moves : ∀ regex ∈ alternatives, Moves .outside regex .outside)
    (fixed : areFactored alternatives = true →
      (ofPieces (beginningOf alternatives)).width?.isSome = true) : AreSettled alternatives := by
  intro factored symbols left isLeft left' isLeft' goes goes'
  obtain ⟨width, isWidth⟩ := Option.isSome_iff_exists.mp (fixed factored)
  obtain ⟨middle, ofBeginning, ofRests⟩ := exists_middle some moves
  exact ofBeginning.eq_of_goesOn ofRests isWidth ⟨symbols, List.suffix_rfl, rfl⟩ isLeft isLeft'
    goes goes'

end ShallowParse.Regex
