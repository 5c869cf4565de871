/-
This file defines matching of patterns on the symbols themselves, by backtracking,
and proves that the expression for a pattern follows it on the text of the symbols.
It leaves what the pattern leaves, in every case. It also prefers what the pattern
prefers, unless alternatives are factored whose common beginning can take different
numbers of symbols.
-/

import ShallowParse.Pattern.Expression
import ShallowParse.Proofs.Pattern.Faults
import ShallowParse.Proofs.Regex.Factoring
import ShallowParse.Proofs.Regex.Repetition
import ShallowParse.Proofs.Symbols.Following

namespace ShallowParse.Pattern

/-! ### Matching symbols -/

mutual

/-- The ways in which a pattern matches, in order of preference. -/
def ways : Pattern → Ways String
  | exactly tag => Ways.single (· = tag)
  | startingWith stem => Ways.single fun symbol => stem.toList <+: symbol.toList
  | alternation alternatives => waysOfAny alternatives
  | repetition body least most => Ways.repeated (ways body) least most
  | sequence items => waysInOrder items

/-- The ways of alternatives, those of each after those of the alternatives before it. -/
def waysOfAny : List Pattern → Ways String
  | [], _ => []
  | alternative :: others, symbols => ways alternative symbols ++ waysOfAny others symbols

/-- The ways of items one after the other. -/
def waysInOrder : List Pattern → Ways String
  | [], symbols => [symbols]
  | item :: others, symbols => (ways item symbols).flatMap (waysInOrder others)

end

mutual

theorem leavesSuffix_ways : (pattern : Pattern) → Ways.LeavesSuffix pattern.ways
  | exactly _ => by
    rw [ways]
    exact Ways.leavesSuffix_single _
  | startingWith _ => by
    rw [ways]
    exact Ways.leavesSuffix_single _
  | alternation alternatives => by
    rw [ways]
    exact leavesSuffix_waysOfAny alternatives
  | repetition body least most => by
    rw [ways]
    exact Ways.leavesSuffix_repeated (leavesSuffix_ways body) least most
  | sequence items => by
    rw [ways]
    exact leavesSuffix_waysInOrder items

theorem leavesSuffix_waysOfAny : (alternatives : List Pattern) →
    Ways.LeavesSuffix (waysOfAny alternatives)
  | [] => fun _ _ member => by cases member
  | alternative :: others => by
    intro symbols rest member
    rcases List.mem_append.mp member with isFirst | isOther
    · exact leavesSuffix_ways alternative symbols rest isFirst
    · exact leavesSuffix_waysOfAny others symbols rest isOther

theorem leavesSuffix_waysInOrder : (items : List Pattern) →
    Ways.LeavesSuffix (waysInOrder items)
  | [] => fun symbols rest member => List.mem_singleton.mp member ▸ List.suffix_rfl
  | item :: others => by
    intro symbols rest member
    obtain ⟨middle, isMiddle, isRest⟩ := List.mem_flatMap.mp member
    exact (leavesSuffix_waysInOrder others middle rest isRest).trans
      (leavesSuffix_ways item symbols middle isMiddle)

end

/-! ### Single symbols -/

theorem bracketed_isPrefix_iff (tag symbol : String) (rest : List Char) :
    Symbol.bracketed tag <+: Symbol.bracketed symbol ++ rest ↔ symbol = tag := by
  rw [Symbol.bracketed_eq, Symbol.bracketed_eq, List.cons_append, List.cons_prefix_cons,
    List.append_assoc, List.singleton_append, Symbol.encode, Symbol.encode,
    Symbol.encoded_close_isPrefix_iff, String.toList_inj]
  exact ⟨fun same => same.2.symm, fun same => ⟨rfl, same.symm⟩⟩

theorem ways_regex_exactly (tag : String) (symbols : List String) :
    (regex (exactly tag)).ways (SymbolText.written symbols) =
      ((exactly tag).ways symbols).map SymbolText.written := by
  rw [regex, ways, Regex.ways_literal]
  cases symbols with
  | nil => rfl
  | cons symbol rest =>
    simp only [SymbolText.written_cons, bracketed_isPrefix_iff, Ways.single, decide_eq_true_eq]
    split
    · rename_i same
      rw [← same, List.drop_left]
      rfl
    · rfl

/-- Whatever is left of a symbol is passed over in one way. -/
theorem ways_toClosing (left : List Char) (noClosing : '>' ∉ left) (rest : List Char) :
    ((Regex.star (.otherThan '>')).ways (left ++ '>' :: rest)).flatMap (Regex.char '>').ways =
      [rest] := by
  have unfolded (text : List Char) : (Regex.star (.otherThan '>')).ways text = _ :=
    Ways.endless_eq (Regex.otherThan '>').ways text
  induction left with
  | nil =>
    rw [List.nil_append, unfolded]
    simp [Regex.ways, Ways.single]
  | cons char left inductionHypothesis =>
    have isOther : char ≠ '>' := fun isClosing => noClosing (isClosing ▸ List.mem_cons_self)
    have passed : (Regex.otherThan '>').ways (char :: left ++ '>' :: rest) =
        [left ++ '>' :: rest] := if_pos (decide_eq_true isOther)
    have stuck : (Regex.char '>').ways (char :: left ++ '>' :: rest) = [] :=
      if_neg (by simpa using isOther)
    have shorter : (left ++ '>' :: rest).length < (char :: left ++ '>' :: rest).length :=
      Nat.lt_succ_self _
    rw [unfolded, passed, List.flatMap_singleton, if_pos shorter,
      List.flatMap_append, List.flatMap_singleton, stuck, List.append_nil]
    exact inductionHypothesis fun member => noClosing (List.mem_cons_of_mem char member)

theorem ways_regex_startingWith (stem : String) (symbols : List String) :
    (regex (startingWith stem)).ways (SymbolText.written symbols) =
      ((startingWith stem).ways symbols).map SymbolText.written := by
  have inOrder (text : List Char) : (regex (startingWith stem)).ways text =
      ((Regex.literal ('<' :: Symbol.encode stem)).ways text).flatMap fun middle =>
        ((Regex.star (.otherThan '>')).ways middle).flatMap (Regex.char '>').ways := by
    rw [regex, Regex.inOrder, Regex.ways_append]
    rfl
  rw [inOrder, ways, Regex.ways_literal]
  cases symbols with
  | nil => rfl
  | cons symbol rest =>
    have isStem : '<' :: Symbol.encode stem <+: SymbolText.written (symbol :: rest) ↔
        stem.toList <+: symbol.toList := by
      rw [SymbolText.written_cons, Symbol.bracketed_eq, List.cons_append, List.cons_prefix_cons,
        List.append_assoc, List.singleton_append, Symbol.encode, Symbol.encode,
        Symbol.encoded_isPrefix_iff]
      exact and_iff_right rfl
    simp only [isStem, Ways.single, decide_eq_true_eq]
    split
    · rename_i begins
      obtain ⟨left, parted⟩ := begins
      have isEncoded : Symbol.encode symbol =
          Symbol.encode stem ++ left.flatMap Symbol.encodeChar := by
        rw [Symbol.encode, ← parted, List.flatMap_append, ← Symbol.encode]
      have noClosing : '>' ∉ left.flatMap Symbol.encodeChar := fun member =>
        Symbol.not_mem_encode (by decide) symbol (isEncoded ▸ List.mem_append_right _ member)
      have isText : SymbolText.written (symbol :: rest) = ('<' :: Symbol.encode stem) ++
          (left.flatMap Symbol.encodeChar ++ '>' :: SymbolText.written rest) := by
        rw [SymbolText.written_cons, Symbol.bracketed_eq, isEncoded]
        simp only [List.cons_append, List.append_assoc, List.nil_append]
      rw [isText, List.drop_left, List.flatMap_singleton, ways_toClosing _ noClosing]
      rfl
    · rfl

/-! ### Places -/

open Place Regex in
theorem moves_letters (taken : Nat) (chars : List Char) (noClosing : '>' ∉ chars) :
    Moves (inside taken) (literal chars) (inside (taken + chars.length)) := by
  induction chars generalizing taken with
  | nil => exact Moves.empty _
  | cons first chars inductionHypothesis =>
    obtain ⟨notFirst, notOthers⟩ := not_or.mp (List.mem_cons.not.mp noClosing)
    have ofOthers := inductionHypothesis (taken + 1) notOthers
    rw [Nat.add_right_comm] at ofOthers
    exact moves_append.mpr ⟨_, Moves.letter taken (Ne.symm notFirst), ofOthers⟩

open Place Regex in
/-- The beginning of a symbol leads into it. -/
theorem moves_stem (stem : String) :
    Moves outside (literal ('<' :: Symbol.encode stem)) (inside (Symbol.encode stem).length) := by
  have ofLetters := moves_letters 0 (Symbol.encode stem) (Symbol.not_mem_encode (by decide) stem)
  rw [Nat.zero_add] at ofLetters
  exact moves_append.mpr ⟨_, Moves.opening, ofLetters⟩

theorem regexAll_ne_nil {patterns : List Pattern} (some : patterns ≠ []) :
    regexAll patterns ≠ [] := by
  cases patterns with
  | nil => exact absurd rfl some
  | cons pattern others => exact List.cons_ne_nil _ _

mutual

/-- The expression for a pattern without a fault leads from one end of a symbol to another. -/
theorem moves_regex : (pattern : Pattern) → pattern.fault? = none →
    Regex.Moves .outside pattern.regex .outside
  | exactly tag, _ => by
    have closed : Symbol.bracketed tag = ('<' :: Symbol.encode tag) ++ ['>'] := rfl
    rw [regex, closed, Regex.literal, List.map_append]
    exact Regex.moves_inOrder_append.mpr
      ⟨_, moves_stem tag, Regex.moves_append.mpr ⟨_, .closing _, .empty _⟩⟩
  | startingWith stem, _ => by
    rw [regex]
    exact Regex.moves_append.mpr ⟨_, moves_stem stem, .seq (.others _) .closingTail⟩
  | alternation alternatives, faultless => by
    obtain ⟨some, faultless⟩ := faultless_alternatives faultless
    rw [regex]
    exact Regex.moves_either (regexAll_ne_nil some) (moves_regexAll alternatives faultless)
  | repetition body least most, faultless => by
    rw [fault?, Option.or_eq_none_iff] at faultless
    rw [regex]
    exact Regex.moves_repetition (moves_regex body faultless.2) least
      (ne_zero_of_boundsFault? faultless.1)
  | sequence items, faultless => by
    rw [fault?] at faultless
    rw [regex]
    exact Regex.moves_inOrder (moves_regexAll items faultless)

theorem moves_regexAll : (patterns : List Pattern) → faultOfAny? patterns = none →
    ∀ regex ∈ regexAll patterns, Regex.Moves .outside regex .outside
  | [], _ => List.forall_mem_nil _
  | pattern :: others, faultless => by
    rw [faultOfAny?, Option.or_eq_none_iff] at faultless
    rw [regexAll]
    exact List.forall_mem_cons.mpr
      ⟨moves_regex pattern faultless.1, moves_regexAll others faultless.2⟩

end

/-! ### Following -/

mutual

/-- Whether wherever alternatives are factored, at most one end of their common beginning lets any
rest match. -/
def IsSettled : Pattern → Prop
  | exactly _ | startingWith _ => True
  | alternation alternatives =>
    Regex.AreSettled (regexAll alternatives) ∧ AreSettled alternatives
  | repetition body _ _ => IsSettled body
  | sequence items => AreSettled items

def AreSettled : List Pattern → Prop
  | [] => True
  | pattern :: patterns => IsSettled pattern ∧ AreSettled patterns

end

section Following

variable {comparison : Ways.Comparison (List Char)}

mutual

/-- The expression for a pattern without a fault follows the pattern, as far as the comparison does
not mind factoring. -/
theorem follows_regex : (pattern : Pattern) → pattern.fault? = none →
    ((∀ rests ways, comparison.Exchanges rests ways) ∨ pattern.IsSettled) →
    Ways.Follows comparison pattern.regex.ways pattern.ways
  | exactly tag, _, _ => fun symbols => by
    rw [ways_regex_exactly]
    exact comparison.refl _
  | startingWith stem, _, _ => fun symbols => by
    rw [ways_regex_startingWith]
    exact comparison.refl _
  | alternation alternatives, faultless, settled => by
    obtain ⟨some, faultless⟩ := faultless_alternatives faultless
    rw [IsSettled] at settled
    have ofAny := follows_any alternatives faultless (settled.imp_right And.right)
    rw [ways, regex]
    refine ofAny.of_holds fun symbols => Regex.ways_either comparison (regexAll_ne_nil some) _ ?_
    intro factored
    rcases settled with exchanges | ⟨areSettled, _⟩
    · exact exchanges _ _
    · exact areSettled.exchanges comparison symbols factored
  | repetition body least most, faultless, settled => by
    rw [fault?, Option.or_eq_none_iff] at faultless
    rw [IsSettled] at settled
    have ofBody := follows_regex body faultless.2 settled
    rw [ways, regex]
    refine (ofBody.repeated (leavesSuffix_ways body) least most).of_holds fun symbols => ?_
    exact comparison.ofSameOrder (Regex.ways_repetition (moves_regex body faultless.2) least most _)
  | sequence items, faultless, settled => by
    rw [fault?] at faultless
    rw [IsSettled] at settled
    rw [ways, regex]
    exact follows_inOrder items faultless settled

theorem follows_any : (alternatives : List Pattern) → faultOfAny? alternatives = none →
    ((∀ rests ways, comparison.Exchanges rests ways) ∨ AreSettled alternatives) →
    Ways.Follows comparison
      (fun text => (regexAll alternatives).flatMap fun regex => regex.ways text)
      (waysOfAny alternatives)
  | [], _, _ => fun _ => comparison.refl []
  | alternative :: others, faultless, settled => by
    rw [faultOfAny?, Option.or_eq_none_iff] at faultless
    rw [AreSettled] at settled
    exact (follows_regex alternative faultless.1 (settled.imp_right And.left)).either
      (follows_any others faultless.2 (settled.imp_right And.right))

theorem follows_inOrder : (items : List Pattern) → faultOfAny? items = none →
    ((∀ rests ways, comparison.Exchanges rests ways) ∨ AreSettled items) →
    Ways.Follows comparison (Regex.inOrder (regexAll items)).ways (waysInOrder items)
  | [], _, _ => Ways.Follows.nothing
  | item :: others, faultless, settled => by
    rw [faultOfAny?, Option.or_eq_none_iff] at faultless
    rw [AreSettled] at settled
    rw [regexAll, Regex.inOrder, funext (Regex.ways_append _ _)]
    exact (follows_regex item faultless.1 (settled.imp_right And.left)).inOrder
      (follows_inOrder others faultless.2 (settled.imp_right And.right))

end

end Following

/-! ### Fixed numbers of symbols -/

mutual

/-- Whether every common beginning that is factored out always takes the same number of symbols. -/
def factorsFixed : Pattern → Bool
  | exactly _ | startingWith _ => true
  | alternation alternatives =>
    (!Regex.areFactored (regexAll alternatives) ||
      (Regex.ofPieces (Regex.beginningOf (regexAll alternatives))).width?.isSome) &&
      factorFixed alternatives
  | repetition body _ _ => factorsFixed body
  | sequence items => factorFixed items

def factorFixed : List Pattern → Bool
  | [] => true
  | pattern :: patterns => factorsFixed pattern && factorFixed patterns

end

mutual

theorem isSettled_of_factorsFixed : (pattern : Pattern) → pattern.fault? = none →
    pattern.factorsFixed = true → pattern.IsSettled
  | exactly _, _, _ => trivial
  | startingWith _, _, _ => trivial
  | alternation alternatives, faultless, fixed => by
    obtain ⟨some, faultless⟩ := faultless_alternatives faultless
    obtain ⟨fixedHere, fixedInside⟩ := Bool.and_eq_true_iff.mp fixed
    refine ⟨Regex.areSettled_of_width (regexAll_ne_nil some)
      (moves_regexAll alternatives faultless) fun factored => ?_,
      areSettled_of_factorFixed alternatives faultless fixedInside⟩
    simpa [factored] using fixedHere
  | repetition body _ _, faultless, fixed => by
    rw [fault?, Option.or_eq_none_iff] at faultless
    exact isSettled_of_factorsFixed body faultless.2 fixed
  | sequence items, faultless, fixed => by
    rw [fault?] at faultless
    exact areSettled_of_factorFixed items faultless fixed

theorem areSettled_of_factorFixed : (patterns : List Pattern) → faultOfAny? patterns = none →
    factorFixed patterns = true → AreSettled patterns
  | [], _, _ => trivial
  | pattern :: others, faultless, fixed => by
    rw [faultOfAny?, Option.or_eq_none_iff] at faultless
    obtain ⟨fixedFirst, fixedOthers⟩ := Bool.and_eq_true_iff.mp fixed
    exact ⟨isSettled_of_factorsFixed pattern faultless.1 fixedFirst,
      areSettled_of_factorFixed others faultless.2 fixedOthers⟩

end

end ShallowParse.Pattern
