/-
This file proves that a written pattern, read again, means the same. It takes as
few symbols, names the same tags and matches in the same ways, in the same order.
It is also made ready as the same expression, unless an alternation directly inside
another one is factored. Such an alternation gives up its alternatives when it is
read again, so that it is no longer factored apart from the others.
-/

import ShallowParse.Proofs.Pattern.Matching
import ShallowParse.Proofs.Pattern.Meaning
import ShallowParse.Proofs.Pattern.Nesting
import ShallowParse.Proofs.Pattern.Shortest
import ShallowParse.Proofs.Regex.NormalForm
import ShallowParse.Proofs.Rows

namespace ShallowParse

/-! ### Chains of lists, numbers, truth values and ways -/

namespace Chain

/-- Lists one after the other. -/
def lists (Item : Type) : Chain (List Item) where
  join := (· ++ ·)
  nothing := []
  join_assoc := List.append_assoc
  nothing_join := List.nil_append
  join_nothing := List.append_nil

/-- What holds if all of some values hold. -/
def conjunction : Chain Bool where
  join := and
  nothing := true
  join_assoc := Bool.and_assoc
  nothing_join := Bool.true_and
  join_nothing := Bool.and_true

/-- The smaller one of two numbers, as far as they are known. -/
def smallest : Chain (Option Nat) where
  join
    | some first, some second => some (min first second)
    | some first, none => some first
    | none, second => second
  nothing := none
  join_assoc := by
    rintro (_ | first) (_ | second) (_ | third) <;> try rfl
    exact congrArg some (Nat.min_assoc first second third)
  nothing_join _ := rfl
  join_nothing := by rintro (_ | _) <;> rfl

/-- The sum of two numbers, if both are known. -/
def sum : Chain (Option Nat) where
  join
    | some first, some second => some (first + second)
    | _, _ => none
  nothing := some 0
  join_assoc := by
    rintro (_ | first) (_ | second) (_ | third) <;> try rfl
    exact congrArg some (Nat.add_assoc first second third)
  nothing_join := by
    rintro (_ | value)
    · rfl
    · exact congrArg some (Nat.zero_add value)
  join_nothing := by rintro (_ | _) <;> rfl

/-- The ways of either one, those of the first preferred. -/
def eitherWay (Item : Type) : Chain (Ways Item) where
  join first second := fun items => first items ++ second items
  nothing := fun _ => []
  join_assoc _ _ _ := funext fun _ => List.append_assoc _ _ _
  nothing_join _ := rfl
  join_nothing _ := funext fun _ => List.append_nil _

/-- The ways of one after the other. -/
def bothWays (Item : Type) : Chain (Ways Item) where
  join first second := fun items => (first items).flatMap second
  nothing := fun items => [items]
  join_assoc _ _ _ := funext fun _ => List.flatMap_assoc
  nothing_join _ := funext fun _ => List.flatMap_singleton _ _
  join_nothing _ := funext fun _ => List.flatMap_singleton' _

/-- Expressions in a row. -/
def regexes : Chain Regex where
  join := Regex.append
  nothing := .empty
  join_assoc := Regex.append_assoc
  nothing_join _ := rfl
  join_nothing := Regex.append_empty

/-- A function on lists of patterns that goes through them one by one. -/
theorem eq_all_map {Value : Type} (chain : Chain Value) {of : Pattern → Value}
    {ofAll : List Pattern → Value} (of_nil : ofAll [] = chain.nothing)
    (of_cons : ∀ pattern patterns,
      ofAll (pattern :: patterns) = chain.join (of pattern) (ofAll patterns))
    (patterns : List Pattern) : ofAll patterns = chain.all (patterns.map of) := by
  induction patterns with
  | nil => exact of_nil
  | cons pattern patterns inductionHypothesis =>
    rw [of_cons, inductionHypothesis]
    rfl

end Chain

namespace Pattern

/-! ### Meanings that do not mind -/

/-- The number of symbols of a shortest match as a meaning. -/
def fewest : Meaning (Option Nat) :=
  .ofChains shortest .smallest .sum
    (fun body least _ => if least = 0 then some 0 else body.map (· * least))
    (Chain.smallest.eq_all_map rfl fun _ _ => rfl) (fun _ _ _ => rfl)
    (Chain.sum.eq_all_map rfl fun _ _ => rfl)

/-- The tags that are named in full as a meaning. -/
def tags : Meaning (List String) :=
  .ofChains namedTags (.lists String) (.lists String) (fun body _ _ => body)
    ((Chain.lists String).eq_all_map rfl fun _ _ => rfl) (fun _ _ _ => rfl)
    ((Chain.lists String).eq_all_map rfl fun _ _ => rfl)

/-- Whether all bounds are in order as a meaning. -/
def orderedBounds : Meaning Bool :=
  .ofChains hasOrderedBounds .conjunction .conjunction
    (fun body least most => most.all (least ≤ ·) && body)
    (Chain.conjunction.eq_all_map rfl fun _ _ => rfl) (fun _ _ _ => rfl)
    (Chain.conjunction.eq_all_map rfl fun _ _ => rfl)

/-- The ways of matching as a meaning. -/
def orderedWays : Meaning (Ways String) :=
  .ofChains ways (.eitherWay String) (.bothWays String) Ways.repeated
    ((Chain.eitherWay String).eq_all_map rfl fun _ _ => rfl) (fun _ _ _ => rfl)
    ((Chain.bothWays String).eq_all_map rfl fun _ _ => rfl)

theorem shortest_reread (pattern : Pattern) : pattern.reread.shortest = pattern.shortest :=
  fewest.of_reread pattern.nestedAre_true

theorem namedTags_reread (pattern : Pattern) : pattern.reread.namedTags = pattern.namedTags :=
  tags.of_reread pattern.nestedAre_true

theorem hasOrderedBounds_reread (pattern : Pattern) :
    pattern.reread.hasOrderedBounds = pattern.hasOrderedBounds :=
  orderedBounds.of_reread pattern.nestedAre_true

/-- A pattern read again matches in the same ways, in the same order. -/
theorem ways_reread (pattern : Pattern) : pattern.reread.ways = pattern.ways :=
  orderedWays.of_reread pattern.nestedAre_true

/-! ### Faults -/

mutual

/-- Where there is no fault, no alternation is empty. -/
theorem nestedAre_of_faultless : (pattern : Pattern) → pattern.fault? = none →
    pattern.nestedAre (!List.isEmpty ·) = true
  | exactly _, _ | startingWith _, _ => rfl
  | alternation alternatives, faultless =>
    nestedAreInAny_of_faultless alternatives (faultless_alternatives faultless).2
  | repetition body _ _, faultless =>
    nestedAre_of_faultless body (Option.or_eq_none_iff.mp faultless).2
  | sequence items, faultless => nestedAreInOrder_of_faultless items faultless

theorem nestedAreInAny_of_faultless : (patterns : List Pattern) → faultOfAny? patterns = none →
    nestedAreInAny (!List.isEmpty ·) patterns = true
  | [], _ => rfl
  | pattern :: patterns, faultless => by
    obtain ⟨ofFirst, ofRest⟩ := Option.or_eq_none_iff.mp faultless
    have stands : pattern.standsFor (!List.isEmpty ·) = true := by
      cases pattern with
      | alternation alternatives =>
        simp [standsFor, (faultless_alternatives ofFirst).1]
      | _ => rfl
    rw [nestedAreInAny, stands, nestedAre_of_faultless pattern ofFirst,
      nestedAreInAny_of_faultless patterns ofRest]
    rfl

theorem nestedAreInOrder_of_faultless : (patterns : List Pattern) → faultOfAny? patterns = none →
    nestedAreInOrder (!List.isEmpty ·) patterns = true
  | [], _ => rfl
  | pattern :: patterns, faultless => by
    obtain ⟨ofFirst, ofRest⟩ := Option.or_eq_none_iff.mp faultless
    rw [nestedAreInOrder, nestedAre_of_faultless pattern ofFirst,
      nestedAreInOrder_of_faultless patterns ofRest]
    rfl

end

theorem isNone_faultOfAny? (patterns : List Pattern) :
    (faultOfAny? patterns).isNone = Chain.conjunction.all (patterns.map (·.fault?.isNone)) := by
  induction patterns with
  | nil => rfl
  | cons pattern patterns inductionHypothesis =>
    rw [List.map_cons, Chain.all_cons, ← inductionHypothesis, faultOfAny?]
    cases fault? pattern <;> rfl

/-- Whether there is no fault, as a meaning. -/
def faultless : Meaning Bool where
  of pattern := pattern.fault?.isNone
  any values := !values.isEmpty && Chain.conjunction.all values
  row := .conjunction
  copies body least most := (boundsFault? least most).isNone && body
  joins := (!List.isEmpty ·)
  of_alternation alternatives := by
    rw [← isNone_faultOfAny?, fault?]
    cases alternatives <;> rfl
  of_repetition body least most := by
    rw [fault?]
    cases boundsFault? least most <;> rfl
  of_sequence items := isNone_faultOfAny? items
  any_singleton pattern := Bool.and_true _
  any_any before alternatives after notEmpty := by
    cases alternatives with
    | nil => cases notEmpty
    | cons first others =>
      have notEmpty (value : Bool) (values : List Bool) :
          (before ++ value :: values).isEmpty = false := by cases before <;> rfl
      have joined :=
        Chain.conjunction.all_all before ((first :: others).map (·.fault?.isNone)) after
      simpa [notEmpty] using joined

/-- A pattern without a fault has none when it is read again. -/
theorem fault?_reread {pattern : Pattern} (isFaultless : pattern.fault? = none) :
    pattern.reread.fault? = none := by
  have same := faultless.of_reread (nestedAre_of_faultless pattern isFaultless)
  rw [← Option.isNone_iff_eq_none] at isFaultless ⊢
  exact same.trans isFaultless

/-! ### Expressions -/

theorem regexAll_eq_map (patterns : List Pattern) : regexAll patterns = patterns.map regex :=
  eq_map_of_cons rfl (fun _ _ => rfl) patterns

mutual

/-- The expression for a pattern stays as it is as the only alternative. -/
theorem isStable_regex : (pattern : Pattern) → pattern.regex.IsStable
  | exactly tag => Regex.isStable_literal _
  | startingWith stem => by
    refine Regex.isStable_append (Regex.isStable_literal _) (Regex.isStable_inOrder ?_)
    exact List.forall_mem_cons.mpr ⟨Regex.isStable_of_branch rfl rfl,
      List.forall_mem_singleton.mpr (Regex.isStable_of_branch rfl rfl)⟩
  | alternation alternatives =>
    Regex.isStable_either fun regex member => (isStable_regexAll alternatives regex member).1
  | repetition body least most => Regex.isStable_repetition (isStable_regex body) least most
  | sequence items => Regex.isStable_inOrder (isStable_regexAll items)

theorem isStable_regexAll : (patterns : List Pattern) → ∀ regex ∈ regexAll patterns, regex.IsStable
  | [] => List.forall_mem_nil _
  | pattern :: patterns =>
    List.forall_mem_cons.mpr ⟨isStable_regex pattern, isStable_regexAll patterns⟩

end

/-- The expression for a pattern as its meaning, which minds if alternatives are factored. -/
def expression : Meaning Regex where
  of := regex
  any := Regex.either
  row := .regexes
  copies := Regex.repetition
  joins alternatives := Regex.areKept (regexAll alternatives)
  of_alternation alternatives := by rw [regex, regexAll_eq_map]
  of_repetition _ _ _ := rfl
  of_sequence := Chain.regexes.eq_all_map rfl fun _ _ => rfl
  any_singleton pattern := (isStable_regex pattern).2
  any_any before alternatives after kept := by
    rw [← regexAll_eq_map]
    exact Regex.either_either before after kept

/-- Whether every alternation directly inside another one is a class or keeps its alternatives, which
it does unless they are factored. -/
def keepsNested (pattern : Pattern) : Bool :=
  pattern.nestedAre fun alternatives => Regex.areKept (regexAll alternatives)

theorem regex_reread {pattern : Pattern} (keeps : pattern.keepsNested = true) :
    pattern.reread.regex = pattern.regex :=
  expression.of_reread keeps

/-! ### Matchers -/

/-- What is made ready, is made ready again. -/
theorem ofPattern_reread {pattern : Pattern} {matcher : Matcher}
    (writable : pattern.isWritable = true) (keeps : pattern.keepsNested = true)
    (ready : Matcher.ofPattern pattern = .ok matcher) :
    Matcher.ofPattern pattern.reread = .ok matcher := by
  obtain ⟨rfl, ordered, shallow, small⟩ := ofPattern_eq_ok_iff.mp ready
  refine ofPattern_eq_ok_iff.mpr ⟨?_, ?_, (depth_reread writable).trans shallow, ?_⟩
  · rw [regex_reread keeps]
  · rwa [hasOrderedBounds_reread]
  · rwa [regex_reread keeps]

/-- The matchers of a pattern and of the pattern read again agree if both keep their preference. -/
theorem matchAt_reread {pattern : Pattern} {matcher matcher' : Matcher}
    (faultless : pattern.fault? = none) (ready : Matcher.ofPattern pattern = .ok matcher)
    (ready' : Matcher.ofPattern pattern.reread = .ok matcher') (keeps : pattern.KeepsPreference)
    (keeps' : pattern.reread.KeepsPreference) (symbols : List String) (index : Nat) :
    matcher'.matchAt (.ofSymbols symbols) index = matcher.matchAt (.ofSymbols symbols) index := by
  rw [matchAt_eq_taken faultless ready keeps,
    matchAt_eq_taken (fault?_reread faultless) ready' keeps', taken, taken, ways_reread]

/-- A written pattern is read as a pattern that takes as few symbols, names the same symbols and
matches in the same ways, in the same order. It is also matched alike if every alternation directly
inside another one keeps its alternatives, or if both patterns keep their preference. -/
theorem ofText_written_keeps {pattern : Pattern} (writable : pattern.isWritable = true)
    (faultless : pattern.fault? = none) :
    Rule.ofText ("X: \x7b" ++ pattern.written ++ "\x7d") = .ok ⟨"X", pattern.reread⟩ ∧
      pattern.reread.minLength = pattern.minLength ∧ pattern.reread.symbols = pattern.symbols ∧
      pattern.reread.fault? = none ∧ pattern.reread.ways = pattern.ways ∧
      (pattern.keepsNested = true → ∀ matcher, Matcher.ofPattern pattern = .ok matcher →
        ∃ matcher', Matcher.ofPattern pattern.reread = .ok matcher' ∧ ∀ symbols index,
          matcher'.matchAt (.ofSymbols symbols) index =
            matcher.matchAt (.ofSymbols symbols) index) ∧
      (pattern.KeepsPreference → pattern.reread.KeepsPreference → ∀ matcher matcher',
        Matcher.ofPattern pattern = .ok matcher → Matcher.ofPattern pattern.reread = .ok matcher' →
        ∀ symbols index, matcher'.matchAt (.ofSymbols symbols) index =
          matcher.matchAt (.ofSymbols symbols) index) := by
  have isLabel : Lexeme.isLabel "X".toList = true := by decide
  have isRead : Rule.ofText (Rule.written ⟨"X", pattern⟩) = .ok ⟨"X", pattern.reread⟩ :=
    Rule.ofText_written isLabel writable faultless
  refine ⟨isRead, ?_, ?_, fault?_reread faultless, ways_reread pattern, ?_, ?_⟩
  · rw [minLength_eq, shortest_reread, minLength_eq]
  · rw [symbols, namedTags_reread, symbols]
  · intro keeps matcher ready
    exact ⟨matcher, ofPattern_reread writable keeps ready, fun _ _ => rfl⟩
  · intro keeps keeps' matcher matcher' ready ready'
    exact matchAt_reread faultless ready ready' keeps keeps'

/-- A verb, or a noun and what it belongs to. The inner alternatives are factored, and only them. -/
def verbOrBelonging : Pattern :=
  alternation [alternation [sequence [startingWith "NN", exactly "POS"],
    sequence [startingWith "NN", exactly "IN"]], startingWith "VB"]

theorem ofText_written_keeps_belonging :
    (belonging.isWritable = true ∧ belonging.fault? = none ∧ belonging.keepsNested = true ∧
      Matcher.ofPattern belonging = .ok ⟨belonging.regex⟩ ∧
      ∃ matcher', Matcher.ofPattern belonging.reread = .ok matcher' ∧ ∀ symbols index,
        matcher'.matchAt (.ofSymbols symbols) index =
          Matcher.matchAt ⟨belonging.regex⟩ (.ofSymbols symbols) index) ∧
    (verbOrBelonging.isWritable = true ∧ verbOrBelonging.fault? = none ∧
      verbOrBelonging.keepsNested = false ∧ verbOrBelonging.KeepsPreference ∧
      verbOrBelonging.reread.KeepsPreference ∧ ∀ symbols index,
        Matcher.matchAt ⟨verbOrBelonging.reread.regex⟩ (.ofSymbols symbols) index =
          Matcher.matchAt ⟨verbOrBelonging.regex⟩ (.ofSymbols symbols) index) := by
  have writable : belonging.isWritable = true := by decide +kernel
  have faultless : belonging.fault? = none := by decide
  have nested : belonging.keepsNested = true := by decide +kernel
  have ready : Matcher.ofPattern belonging = .ok ⟨belonging.regex⟩ := by rfl
  obtain ⟨_, _, _, _, _, agree, _⟩ := ofText_written_keeps writable faultless
  refine ⟨⟨writable, faultless, nested, ready, agree nested _ ready⟩, ?_⟩
  have writable : verbOrBelonging.isWritable = true := by decide +kernel
  have faultless : verbOrBelonging.fault? = none := by decide
  have keeps : verbOrBelonging.KeepsPreference :=
    ⟨by decide +kernel, isSettled_of_factorsFixed _ faultless (by decide +kernel)⟩
  have keeps' : verbOrBelonging.reread.KeepsPreference :=
    ⟨by decide +kernel, isSettled_of_factorsFixed _ (by decide +kernel) (by decide +kernel)⟩
  obtain ⟨_, _, _, _, _, _, agree⟩ := ofText_written_keeps writable faultless
  exact ⟨writable, faultless, by decide +kernel, keeps, keeps', agree keeps keeps' _ _ rfl rfl⟩

/-- Alternatives that begin with the same loop, inside another alternation. -/
def loopOrOther : Pattern :=
  alternation [sharedLoop, exactly "C"]

/-- What is factored apart from other alternatives is no longer factored when it is read again, and
then another match is found. -/
theorem matchAt_reread_ne :
    loopOrOther.isWritable = true ∧ loopOrOther.fault? = none ∧
      Rule.ofText ("X: \x7b" ++ loopOrOther.written ++ "\x7d") =
        .ok ⟨"X", alternation [sequence [zeroOrMore (exactly "A"), exactly "A"],
          sequence [zeroOrMore (exactly "A"), exactly "B"], exactly "C"]⟩ ∧
      Rule.ofText ("X: \x7b" ++ loopOrOther.written ++ "\x7d") = .ok ⟨"X", loopOrOther.reread⟩ ∧
      Matcher.ofPattern loopOrOther = .ok ⟨loopOrOther.regex⟩ ∧
      Matcher.ofPattern loopOrOther.reread = .ok ⟨loopOrOther.reread.regex⟩ ∧
      Matcher.matchAt ⟨loopOrOther.regex⟩ (.ofSymbols ["A", "A", "B"]) 0 = some 3 ∧
      Matcher.matchAt ⟨loopOrOther.reread.regex⟩ (.ofSymbols ["A", "A", "B"]) 0 = some 2 :=
  ⟨by decide +kernel, by decide, by rfl, by rfl, by rfl, by rfl, by decide +kernel,
    by decide +kernel⟩

end Pattern

end ShallowParse
