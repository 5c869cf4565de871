/-
This file proves that matching on the text of symbols agrees with matching on the
symbols themselves. A match always covers whole symbols and is one in which the
pattern matches. It is the preferred one if the search follows the order of
preference through all repetitions and factoring keeps that order. Where either is
not so, another match may be found.
-/

import ShallowParse.Matcher
import ShallowParse.Proofs.Pattern.Ways
import ShallowParse.Proofs.Regex.Matching

namespace ShallowParse.Pattern

/-! ### The preferred match -/

/-- The number of symbols that the preferred way takes, or `none` if there is no way or the
preferred one takes nothing. -/
def taken (pattern : Pattern) (symbols : List String) : Option Nat :=
  match (pattern.ways symbols).head? with
  | none => none
  | some rest =>
    if rest.length < symbols.length then some (symbols.length - rest.length) else none

/-- Whether the preferred match is found: every repeated body prefers all that it can take to taking
nothing, and wherever alternatives are factored, at most one end of their common beginning lets any
rest match. -/
def KeepsPreference (pattern : Pattern) : Prop :=
  pattern.regex.isSteady = true ∧ pattern.IsSettled

/-! ### Whole symbols -/

/-- Some symbols, which were taken, and those that are left make up all symbols. -/
theorem exists_taken {pattern : Pattern} {symbols rest : List String}
    (isWay : rest ∈ pattern.ways symbols) : ∃ taken, symbols = taken ++ rest := by
  obtain ⟨taken, parted⟩ := leavesSuffix_ways pattern symbols rest isWay
  exact ⟨taken, parted.symm⟩

theorem take_written {taken rest : List String} {length : Nat}
    (sameLength : (SymbolText.written rest).length + length =
      (SymbolText.written (taken ++ rest)).length) :
    (SymbolText.written (taken ++ rest)).take length = SymbolText.written taken := by
  rw [SymbolText.written_append, List.length_append] at sameLength
  rw [SymbolText.written_append, List.take_left' (by omega)]

/-- A match on the text of symbols covers whole symbols, and the pattern can take these. -/
theorem exists_way_of_match {pattern : Pattern} (faultless : pattern.fault? = none)
    {symbols : List String} {length : Nat}
    (found : pattern.regex.matchLength? (SymbolText.written symbols) = some length) :
    ∃ taken rest, symbols = taken ++ rest ∧ rest ∈ pattern.ways symbols ∧
      (SymbolText.written symbols).take length = SymbolText.written taken := by
  obtain ⟨left, isWay, sameLength⟩ := pattern.regex.exists_way_of_matchLength? _ _ found
  have follows : Ways.Follows Ways.Comparison.members pattern.regex.ways pattern.ways :=
    follows_regex pattern faultless (Or.inl Ways.Comparison.members_exchanges)
  obtain ⟨rest, isRest, rfl⟩ := List.mem_map.mp ((follows symbols left).mp isWay)
  obtain ⟨taken, parted⟩ := exists_taken isRest
  subst parted
  exact ⟨taken, rest, rfl, isRest, take_written sameLength⟩

/-- The number of symbols that a match on their text covers is what the matcher answers. -/
theorem matchAt_of_match {matcher : Matcher} {symbols taken : List String} {index length : Nat}
    (found : matcher.regex.matchLength? ((SymbolText.ofSymbols symbols).suffix index) = some length)
    (covers : ((SymbolText.ofSymbols symbols).suffix index).take length =
      SymbolText.written taken) :
    matcher.matchAt (.ofSymbols symbols) index =
      if taken = [] then none else some taken.length := by
  rw [Matcher.matchAt, found]
  simp only [covers, SymbolText.count_written, List.length_eq_zero_iff]

/-! ### Agreement -/

/-- The number of symbols that the first way takes, if they are known. -/
theorem taken_of_head? {pattern : Pattern} {taken rest : List String}
    (isFirst : (pattern.ways (taken ++ rest)).head? = some rest) :
    pattern.taken (taken ++ rest) = if taken = [] then none else some taken.length := by
  rw [Pattern.taken, isFirst]
  cases taken with
  | nil => exact if_neg (Nat.lt_irrefl _)
  | cons symbol others =>
    simp only [List.length_append, List.length_cons, reduceCtorEq, if_false, Nat.add_sub_cancel]
    exact if_pos (by omega)

/-- The match of a pattern that keeps its preference is its first way. -/
theorem matchLength?_written {pattern : Pattern} (faultless : pattern.fault? = none)
    (keeps : pattern.KeepsPreference) (symbols : List String) :
    pattern.regex.matchLength? (SymbolText.written symbols) =
      (pattern.ways symbols).head?.map fun rest =>
        (SymbolText.written symbols).length - (SymbolText.written rest).length := by
  have follows : Ways.Follows Ways.Comparison.order pattern.regex.ways pattern.ways :=
    follows_regex pattern faultless (Or.inr keeps.2)
  have sameFirst : (pattern.regex.ways (SymbolText.written symbols)).head? = _ :=
    Ways.SameOrder.head?_eq (follows symbols)
  rw [Regex.matchLength?_eq _ keeps.1, sameFirst, List.head?_map, Option.map_map]
  rfl

/-- A pattern is made ready as its expression, if its bounds are in order and it is within the
limits. -/
theorem ofPattern_eq_ok_iff {pattern : Pattern} {matcher : Matcher} :
    Matcher.ofPattern pattern = .ok matcher ↔ matcher = ⟨pattern.regex⟩ ∧
      pattern.hasOrderedBounds = true ∧ pattern.depth ≤ depthLimit ∧
      pattern.regex.size ≤ sizeLimit := by
  rw [Matcher.ofPattern, compile]
  split
  · rename_i crossed
    exact iff_of_false nofun fun within => by simp [within.2.1] at crossed
  · rename_i ordered
    split
    · rename_i deep
      exact iff_of_false nofun fun within => Nat.not_le_of_lt deep within.2.2.1
    · rename_i shallow
      split
      · rename_i large
        exact iff_of_false nofun fun within => Nat.not_le_of_lt large within.2.2.2
      · rename_i small
        have within : pattern.hasOrderedBounds = true ∧ pattern.depth ≤ depthLimit ∧
            pattern.regex.size ≤ sizeLimit :=
          ⟨by simpa using ordered, Nat.le_of_not_lt shallow, Nat.le_of_not_lt small⟩
        exact ⟨fun ready => ⟨(Except.ok.inj ready).symm, within⟩,
          fun ⟨isMatcher, _⟩ => congrArg Except.ok isMatcher.symm⟩

theorem regex_of_ready {pattern : Pattern} {matcher : Matcher}
    (ready : Matcher.ofPattern pattern = .ok matcher) : matcher.regex = pattern.regex :=
  congrArg Matcher.regex (ofPattern_eq_ok_iff.mp ready).1

/-- The answer for a pattern that keeps its preference. -/
theorem matchAt_eq_taken {pattern : Pattern} {matcher : Matcher}
    (faultless : pattern.fault? = none) (ready : Matcher.ofPattern pattern = .ok matcher)
    (keeps : pattern.KeepsPreference) (symbols : List String) (index : Nat) :
    matcher.matchAt (.ofSymbols symbols) index = pattern.taken (symbols.drop index) := by
  have isRegex := regex_of_ready ready
  have isFirst := matchLength?_written faultless keeps (symbols.drop index)
  cases head : (pattern.ways (symbols.drop index)).head? with
  | none =>
    rw [head, ← SymbolText.suffix_ofSymbols, ← isRegex] at isFirst
    rw [Matcher.matchAt, isFirst, taken, head]
    rfl
  | some rest =>
    rw [head] at isFirst
    obtain ⟨taken, parted⟩ := exists_taken (List.mem_of_head? head)
    rw [parted] at head isFirst ⊢
    have fewer : (SymbolText.written rest).length ≤
        (SymbolText.written (taken ++ rest)).length := by
      rw [SymbolText.written_append, List.length_append]
      exact Nat.le_add_left _ _
    have covers := take_written (Nat.add_sub_cancel' fewer)
    rw [← parted, ← SymbolText.suffix_ofSymbols] at isFirst covers
    rw [taken_of_head? head]
    exact matchAt_of_match (isRegex ▸ isFirst) covers

/-- Matching on the text of symbols agrees with matching on the symbols. A match always covers whole
symbols, and the pattern can take them. If the pattern keeps its preference, the answer is the
number of symbols that its preferred way takes. -/
theorem matchAt_agrees {pattern : Pattern} {matcher : Matcher}
    (faultless : pattern.fault? = none) (ready : Matcher.ofPattern pattern = .ok matcher)
    (symbols : List String) (index : Nat) :
    (∀ length,
      matcher.regex.matchLength? ((SymbolText.ofSymbols symbols).suffix index) = some length →
      ∃ taken rest, symbols.drop index = taken ++ rest ∧
        rest ∈ pattern.ways (symbols.drop index) ∧
        ((SymbolText.ofSymbols symbols).suffix index).take length = SymbolText.written taken ∧
        matcher.matchAt (.ofSymbols symbols) index =
          if taken = [] then none else some taken.length) ∧
    (pattern.KeepsPreference →
      matcher.matchAt (.ofSymbols symbols) index = pattern.taken (symbols.drop index)) := by
  refine ⟨fun length found => ?_, fun keeps =>
    matchAt_eq_taken faultless ready keeps symbols index⟩
  have onSymbols := found
  rw [regex_of_ready ready, SymbolText.suffix_ofSymbols] at onSymbols
  obtain ⟨taken, rest, parted, isRest, covers⟩ := exists_way_of_match faultless onSymbols
  rw [← SymbolText.suffix_ofSymbols] at covers
  exact ⟨taken, rest, parted, isRest, covers, matchAt_of_match found covers⟩

/-- A noun with or without an article before it, and what it belongs to. The alternatives are
factored within the second symbol. -/
def belonging : Pattern :=
  sequence [optional (exactly "DT"),
    alternation [sequence [startingWith "NN", exactly "POS"],
      sequence [startingWith "NN", exactly "IN"]]]

theorem matchAt_agrees_belonging :
    belonging.fault? = none ∧ Matcher.ofPattern belonging = .ok ⟨belonging.regex⟩ ∧
      belonging.KeepsPreference ∧
      Matcher.matchAt ⟨belonging.regex⟩ (.ofSymbols ["UH", "DT", "NNS", "IN"]) 1 =
        belonging.taken ["DT", "NNS", "IN"] :=
  have faultless : belonging.fault? = none := by decide
  have ready : Matcher.ofPattern belonging = .ok ⟨belonging.regex⟩ := by rfl
  have keeps : belonging.KeepsPreference :=
    ⟨by decide +kernel, isSettled_of_factorsFixed belonging faultless (by decide +kernel)⟩
  ⟨faultless, ready, keeps,
    (matchAt_agrees faultless ready ["UH", "DT", "NNS", "IN"] 1).2 keeps⟩

/-- A loop over a body that first tries to take nothing, and then two symbols. -/
def restless : Pattern :=
  sequence [zeroOrMore (alternation [optional (exactly "Z"), exactly "A"]),
    alternation [sequence [exactly "A", exactly "B"], sequence [exactly "B", exactly "C"]]]

/-- Alternatives that begin with the same loop, which then can end in several places. -/
def sharedLoop : Pattern :=
  alternation [sequence [zeroOrMore (exactly "A"), exactly "A"],
    sequence [zeroOrMore (exactly "A"), exactly "B"]]

/-- Where the preference is not kept another match is found, be it because of a loop or because of
factoring. -/
theorem matchAt_ne_taken :
    (restless.fault? = none ∧ Matcher.ofPattern restless = .ok ⟨restless.regex⟩ ∧
      Matcher.matchAt ⟨restless.regex⟩ (.ofSymbols ["A", "A", "B", "C"]) 0 = some 4 ∧
      restless.taken ["A", "A", "B", "C"] = some 3) ∧
    sharedLoop.fault? = none ∧ Matcher.ofPattern sharedLoop = .ok ⟨sharedLoop.regex⟩ ∧
      Matcher.matchAt ⟨sharedLoop.regex⟩ (.ofSymbols ["A", "A", "B"]) 0 = some 3 ∧
      sharedLoop.taken ["A", "A", "B"] = some 2 :=
  ⟨⟨by decide, by rfl, by decide +kernel, by decide +kernel⟩,
    by decide, by rfl, by decide +kernel, by decide +kernel⟩

end ShallowParse.Pattern
