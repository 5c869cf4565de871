/-
This file proves that a pattern which is read from a text is in normal form. At every
depth its alternations and sequences hold two patterns at least, no item of a sequence
is a sequence, and no tag is empty. So nothing but the bounds of a repetition can be a
fault in it.

The collapsing constructors, by which the reader gets there, change no meaning. What
they make is matched as the same expression as what the plain constructors make. The
only difference is one of depth. An alternation of one pattern has brackets that the
pattern alone does not have, and they are one level more.
-/

import ShallowParse.Proofs.Notation.Repeatable
import ShallowParse.Proofs.Pattern.RoundTrip

namespace ShallowParse

namespace Pattern

/-! ### Normal form -/

/-- Whether a pattern is in normal form by itself, whatever the patterns within it are. -/
def IsNormal : Pattern → Prop
  | exactly tag => tag ≠ ""
  | startingWith _ | repetition _ _ _ => True
  | alternation alternatives => 2 ≤ alternatives.length
  | sequence items => 2 ≤ items.length ∧ ∀ item ∈ items, item.isSequence = false

mutual

/-- A pattern without spare brackets has none in any part. -/
theorem isCollapsed_of_mem_parts : (pattern : Pattern) → pattern.isCollapsed = true →
    ∀ part ∈ pattern.parts, part.isCollapsed = true
  | exactly _, collapsed | startingWith _, collapsed => List.forall_mem_singleton.mpr collapsed
  | alternation alternatives, collapsed =>
    List.forall_mem_cons.mpr ⟨collapsed, isCollapsed_of_mem_partsOfAll alternatives
      (isCollapsed_alternation_iff.mp collapsed).2⟩
  | repetition body _ _, collapsed =>
    List.forall_mem_cons.mpr ⟨collapsed, isCollapsed_of_mem_parts body collapsed⟩
  | sequence items, collapsed =>
    List.forall_mem_cons.mpr ⟨collapsed, isCollapsed_of_mem_partsOfAll items
      (isCollapsed_sequence_iff.mp collapsed).2.2⟩

theorem isCollapsed_of_mem_partsOfAll : (patterns : List Pattern) →
    areCollapsed patterns = true → ∀ part ∈ partsOfAll patterns, part.isCollapsed = true
  | [], _ => List.forall_mem_nil _
  | pattern :: patterns, collapsed => by
    obtain ⟨ofFirst, ofOthers⟩ := Bool.and_eq_true_iff.mp collapsed
    exact List.forall_mem_append.mpr ⟨isCollapsed_of_mem_parts pattern ofFirst,
      isCollapsed_of_mem_partsOfAll patterns ofOthers⟩

end

theorem isNormal_of_isCollapsed {pattern : Pattern} (collapsed : pattern.isCollapsed = true)
    (filled : pattern ≠ exactly "") : pattern.IsNormal := by
  cases pattern with
  | exactly tag => exact fun isEmpty => filled (congrArg exactly isEmpty)
  | startingWith stem => trivial
  | alternation alternatives => exact (isCollapsed_alternation_iff.mp collapsed).1
  | repetition body least most => trivial
  | sequence items =>
    obtain ⟨several, noSequence, _⟩ := isCollapsed_sequence_iff.mp collapsed
    exact ⟨several, noSequence⟩

/-- What the reader of lines makes is in normal form at every depth. -/
theorem IsRead.isNormal {pattern : Pattern} (isRead : pattern.IsRead) :
    ∀ part ∈ pattern.parts, part.IsNormal := fun part member =>
  isNormal_of_isCollapsed (isCollapsed_of_mem_parts pattern isRead.collapsed part member)
    (isRead.filled part member).1

/-- In normal form nothing but the bounds of a repetition can be unfit. -/
theorem IsNormal.isFit_iff {part : Pattern} (normal : part.IsNormal) :
    part.IsFit ↔ ∀ body least most, part = repetition body least (some most) →
      least ≤ most ∧ most ≠ 0 := by
  cases part with
  | exactly tag => exact iff_of_true normal nofun
  | startingWith stem => exact iff_of_true trivial nofun
  | alternation alternatives =>
    refine iff_of_true (fun isNone => ?_) nofun
    cases isNone
    exact Nat.not_succ_le_zero 1 normal
  | repetition body least most =>
    constructor
    · rintro fit _ _ bound same
      cases same
      exact fit bound rfl
    · intro inOrder bound isBound
      exact inOrder body least bound (congrArg _ isBound)
  | sequence items => exact iff_of_true trivial nofun

theorem fault?_eq_none_iff_bounds {pattern : Pattern}
    (normal : ∀ part ∈ pattern.parts, part.IsNormal) :
    pattern.fault? = none ↔ ∀ body least most,
      repetition body least (some most) ∈ pattern.parts → least ≤ most ∧ most ≠ 0 := by
  rw [fault?_eq_none_iff]
  constructor
  · intro areFit body least most member
    exact (normal _ member).isFit_iff.mp (areFit _ member) body least most rfl
  · intro inOrder part member
    refine (normal part member).isFit_iff.mpr fun body least most same => ?_
    exact inOrder body least most (same ▸ member)

end Pattern

/-! ### Meanings -/

namespace Meaning

open Pattern

variable {Value : Type} (meaning : Meaning Value)

/-- The items of sequences mean in a row what the sequences mean. -/
theorem all_flatMap_items (patterns : List Pattern) :
    meaning.row.all ((patterns.flatMap items).map meaning.of) =
      meaning.row.all (patterns.map meaning.of) := by
  induction patterns with
  | nil => rfl
  | cons pattern patterns inductionHypothesis =>
    rw [List.flatMap_cons, List.map_append, Chain.all_append, all_items, inductionHypothesis,
      List.map_cons, Chain.all_cons]

/-- A sequence means the same if sequences in it are dissolved. -/
theorem of_inOrder (patterns : List Pattern) :
    meaning.of (inOrder patterns) = meaning.of (sequence patterns) := by
  have isRow : inOrder patterns = Pattern.row (patterns.flatMap items) := rfl
  rw [isRow, of_row, all_flatMap_items, of_sequence]

/-- An alternation of one pattern means what the pattern means. -/
theorem of_anyOf_eq (patterns : List Pattern) :
    meaning.of (anyOf patterns) = meaning.of (alternation patterns) := by
  rw [of_anyOf, of_alternation]

end Meaning

namespace Pattern

/-! ### Depths -/

theorem nestingOfRun_flatMap_items (patterns : List Pattern) :
    nestingOfRun (patterns.flatMap items) = nestingOfRun patterns := by
  induction patterns with
  | nil => rfl
  | cons pattern patterns inductionHypothesis =>
    rw [List.flatMap_cons, nestingOfRun_append, nestingOfRun_items, inductionHypothesis,
      nestingOfRun]

/-- No brackets are needed around a sequence in a sequence. -/
theorem depth_inOrder (patterns : List Pattern) :
    (inOrder patterns).depth = (sequence patterns).depth := by
  have isRow : inOrder patterns = row (patterns.flatMap items) := rfl
  rw [depth, depth, isRow, nesting_row, nestingOfRun_flatMap_items, nesting]

/-- The brackets around a single alternative are one level. -/
theorem depth_alternation (patterns : List Pattern) :
    (alternation patterns).depth =
      (anyOf patterns).depth + if patterns.length = 1 then 1 else 0 := by
  match patterns with
  | [] | _ :: _ :: _ => rfl
  | [only] =>
    rw [depth, nesting_alternation, deepest_singleton]
    rfl

/-! ### Matchers -/

/-- Patterns with the same expression have the same matcher, if both are made ready. -/
theorem matcher_eq_of_regex {first second : Pattern} (sameRegex : first.regex = second.regex)
    {matcher matcher' : Matcher} (ready : Matcher.ofPattern first = .ok matcher)
    (ready' : Matcher.ofPattern second = .ok matcher') : matcher = matcher' :=
  congrArg Matcher.mk ((regex_of_ready ready).trans (sameRegex.trans (regex_of_ready ready').symm))

theorem ofPattern_inOrder (patterns : List Pattern) :
    Matcher.ofPattern (inOrder patterns) = Matcher.ofPattern (sequence patterns) := by
  have sameRegex : (inOrder patterns).regex = (sequence patterns).regex :=
    expression.of_inOrder patterns
  have sameBounds : (inOrder patterns).hasOrderedBounds = (sequence patterns).hasOrderedBounds :=
    orderedBounds.of_inOrder patterns
  rw [Matcher.ofPattern, Matcher.ofPattern, compile, compile, sameBounds, depth_inOrder, sameRegex]

/-- An alternation is made ready just if what it collapses to is, unless there is no level left for
the brackets of a single alternative. -/
theorem exists_ofPattern_alternation_iff (patterns : List Pattern) :
    (∃ matcher, Matcher.ofPattern (alternation patterns) = .ok matcher) ↔
      (∃ matcher, Matcher.ofPattern (anyOf patterns) = .ok matcher) ∧
        (patterns.length = 1 → (anyOf patterns).depth < depthLimit) := by
  have sameRegex : (anyOf patterns).regex = (alternation patterns).regex :=
    expression.of_anyOf_eq patterns
  have sameBounds : (anyOf patterns).hasOrderedBounds = (alternation patterns).hasOrderedBounds :=
    orderedBounds.of_anyOf_eq patterns
  have shallow : (alternation patterns).depth ≤ depthLimit ↔
      (anyOf patterns).depth ≤ depthLimit ∧
        (patterns.length = 1 → (anyOf patterns).depth < depthLimit) := by
    rw [depth_alternation]
    split <;> omega
  simp only [ofPattern_eq_ok_iff, exists_eq_left, sameBounds, sameRegex, shallow]
  tauto

end Pattern

/-! ### Rules -/

/-- The pattern of a rule that is read from a text is in normal form at every depth, and without a
fault unless the bounds of a repetition are out of order or leave no room for a copy. And the
collapsing constructors change no meaning, whatever they are given. What they make matches in the
same ways, in the same order, as what the plain constructors make. A sequence gets the same matcher.
An alternation has the same matches everywhere, once both are made ready, and one is if the other is
unless a single alternative already has all levels that there may be. -/
theorem Rule.ofText_is_collapsed :
    (∀ text rule, ofText text = .ok rule →
      (∀ part ∈ rule.pattern.parts, part.IsNormal) ∧
      (rule.pattern.fault? = none ↔ ∀ body least most,
        .repetition body least (some most) ∈ rule.pattern.parts → least ≤ most ∧ most ≠ 0)) ∧
    ∀ patterns : List Pattern,
      ((Pattern.inOrder patterns).ways = (Pattern.sequence patterns).ways ∧
        Matcher.ofPattern (.inOrder patterns) = Matcher.ofPattern (.sequence patterns)) ∧
      ((Pattern.anyOf patterns).ways = (Pattern.alternation patterns).ways ∧
        (∀ matcher matcher', Matcher.ofPattern (.anyOf patterns) = .ok matcher →
          Matcher.ofPattern (.alternation patterns) = .ok matcher' → ∀ symbols index,
          matcher.matchAt (.ofSymbols symbols) index =
            matcher'.matchAt (.ofSymbols symbols) index) ∧
        ((∃ matcher, Matcher.ofPattern (.alternation patterns) = .ok matcher) ↔
          (∃ matcher, Matcher.ofPattern (.anyOf patterns) = .ok matcher) ∧
            (patterns.length = 1 → (Pattern.anyOf patterns).depth < Pattern.depthLimit))) := by
  refine ⟨fun text rule read => ?_, fun patterns => ⟨⟨?_, ?_⟩, ?_, ?_, ?_⟩⟩
  · have normal := (isRead_of_ofText read).pattern.isNormal
    exact ⟨normal, Pattern.fault?_eq_none_iff_bounds normal⟩
  · exact Pattern.orderedWays.of_inOrder patterns
  · exact Pattern.ofPattern_inOrder patterns
  · exact Pattern.orderedWays.of_anyOf_eq patterns
  · intro matcher matcher' ready ready' symbols index
    rw [Pattern.matcher_eq_of_regex (Pattern.expression.of_anyOf_eq patterns) ready ready']
  · exact Pattern.exists_ofPattern_alternation_iff patterns

/-- A rule with classes, other alternatives and a repetition that has both bounds. -/
def Rule.phraseOrName : Rule :=
  ⟨"NP", .alternation
    [.sequence [.exactly "DT",
      .repetition (.alternation [.startingWith "JJ", .exactly "VBN"]) 1 (some 3),
      .startingWith "NN"],
    .alternation [.exactly "NNP", .exactly "PRP"]]⟩

/-- The text may have brackets within brackets. -/
theorem Rule.ofText_is_collapsed_phraseOrName :
    (ofText "NP: \x7b((<DT>)((<JJ.*>|(<VBN>))\x7b1,3\x7d(<NN.*>)))|(<NNP|PRP>)\x7d" =
        .ok phraseOrName ∧
      (∀ part ∈ phraseOrName.pattern.parts, part.IsNormal) ∧ phraseOrName.pattern.fault? = none) ∧
    Matcher.ofPattern (.anyOf [phraseOrName.pattern]) = .ok ⟨phraseOrName.pattern.regex⟩ ∧
      ∃ matcher, Matcher.ofPattern (.alternation [phraseOrName.pattern]) = .ok matcher ∧
        ∀ symbols index, Matcher.matchAt ⟨phraseOrName.pattern.regex⟩ (.ofSymbols symbols) index =
          matcher.matchAt (.ofSymbols symbols) index := by
  have read : ofText "NP: \x7b((<DT>)((<JJ.*>|(<VBN>))\x7b1,3\x7d(<NN.*>)))|(<NNP|PRP>)\x7d" =
      .ok phraseOrName := by rfl
  have ready : Matcher.ofPattern (.anyOf [phraseOrName.pattern]) =
      .ok ⟨phraseOrName.pattern.regex⟩ := by rfl
  obtain ⟨ofTexts, ofLists⟩ := ofText_is_collapsed
  obtain ⟨normal, faultless⟩ := ofTexts _ _ read
  obtain ⟨_, _, matchAlike, isReady⟩ := ofLists [phraseOrName.pattern]
  obtain ⟨matcher, ready'⟩ := isReady.mpr ⟨⟨_, ready⟩, fun _ => by decide⟩
  refine ⟨⟨read, normal, faultless.mpr fun body least most member => ?_⟩, ready, matcher, ready',
    matchAlike _ _ ready ready'⟩
  simp only [phraseOrName, Pattern.parts, Pattern.partsOfAll, List.cons_append, List.nil_append,
    List.append_nil, List.mem_cons, List.not_mem_nil, reduceCtorEq, or_false, false_or,
    Pattern.repetition.injEq, Option.some.injEq] at member
  obtain ⟨_, rfl, rfl⟩ := member
  decide

end ShallowParse
