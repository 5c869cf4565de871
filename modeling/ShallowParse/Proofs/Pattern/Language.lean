/-
This file defines the language of a pattern, which is the set of the runs of symbols
that the pattern takes in full. A pattern whose bounds are in order matches in just the
ways in which a run of its language begins the symbols, and its shortest match is as
long as the shortest run, as far as lengths are counted. So a pattern is nullable just
if its language has the empty run. No run holds a symbol that none of the tests in the
pattern accepts.
-/

import ShallowParse.Proofs.Matching.Language
import ShallowParse.Proofs.Pattern.Parts
import ShallowParse.Proofs.Pattern.Shortest

namespace ShallowParse.Pattern

/-! ### Runs of symbols -/

mutual

/-- The runs of symbols that a pattern takes in full. -/
def language : Pattern → Language String
  | exactly tag => {[tag]}
  | startingWith stem => {run | ∃ symbol : String, stem.toList <+: symbol.toList ∧ run = [symbol]}
  | alternation alternatives => languageOfAny alternatives
  | repetition body least most => Ways.languageBetween (language body) least most
  | sequence items => languageInOrder items

def languageOfAny : List Pattern → Language String
  | [] => 0
  | alternative :: others => language alternative + languageOfAny others

def languageInOrder : List Pattern → Language String
  | [] => 1
  | item :: others => language item * languageInOrder others

end

theorem le_of_hasOrderedBounds {body : Pattern} {least : Nat} {most : Option Nat}
    (ordered : (repetition body least most).hasOrderedBounds = true) :
    (∀ bound ∈ most, least ≤ bound) ∧ body.hasOrderedBounds = true := by
  rw [hasOrderedBounds, Bool.and_eq_true_iff, Option.all_eq_true] at ordered
  exact ⟨fun bound isBound => of_decide_eq_true (ordered.1 bound isBound), ordered.2⟩

mutual

/-- A pattern without a fault has all its bounds in order. -/
theorem hasOrderedBounds_of_faultless : (pattern : Pattern) → pattern.fault? = none →
    pattern.hasOrderedBounds = true
  | exactly _, _ | startingWith _, _ => rfl
  | alternation alternatives, faultless =>
    haveOrderedBounds_of_faultless alternatives (faultless_alternatives faultless).2
  | repetition body least most, faultless => by
    obtain ⟨ofBounds, ofBody⟩ := Option.or_eq_none_iff.mp faultless
    rw [hasOrderedBounds, Bool.and_eq_true_iff, Option.all_eq_true]
    exact ⟨fun bound isBound =>
      decide_eq_true ((boundsFault?_eq_none_iff least most).mp ofBounds bound isBound).1,
      hasOrderedBounds_of_faultless body ofBody⟩
  | sequence items, faultless => haveOrderedBounds_of_faultless items faultless

theorem haveOrderedBounds_of_faultless : (patterns : List Pattern) →
    faultOfAny? patterns = none → haveOrderedBounds patterns = true
  | [], _ => rfl
  | pattern :: patterns, faultless => by
    obtain ⟨ofFirst, ofOthers⟩ := Option.or_eq_none_iff.mp faultless
    exact Bool.and_eq_true_iff.mpr ⟨hasOrderedBounds_of_faultless pattern ofFirst,
      haveOrderedBounds_of_faultless patterns ofOthers⟩

end

mutual

/-- A pattern whose bounds are in order leaves symbols just after the runs of its language. -/
theorem spell_ways : (pattern : Pattern) → pattern.hasOrderedBounds = true →
    pattern.ways.Spell pattern.language
  | exactly tag, _ => by
    have isLanguage : language (exactly tag) =
        {run | ∃ symbol, decide (symbol = tag) = true ∧ run = [symbol]} := by
      simp [language]
      rfl
    rw [isLanguage, ways]
    exact Ways.spell_single _
  | startingWith stem, _ => by
    have isLanguage : language (startingWith stem) = {run | ∃ symbol : String,
        decide (stem.toList <+: symbol.toList) = true ∧ run = [symbol]} := by
      simp [language]
      rfl
    rw [isLanguage, ways]
    exact Ways.spell_single _
  | alternation alternatives, ordered => by
    rw [ways, language]
    exact spell_waysOfAny alternatives ordered
  | repetition body least most, ordered => by
    obtain ⟨inOrder, ordered⟩ := le_of_hasOrderedBounds ordered
    rw [ways, language]
    exact (spell_ways body ordered).repeated inOrder
  | sequence items, ordered => by
    rw [ways, language]
    exact spell_waysInOrder items ordered

theorem spell_waysOfAny : (alternatives : List Pattern) → haveOrderedBounds alternatives = true →
    Ways.Spell (waysOfAny alternatives) (languageOfAny alternatives)
  | [], _ => fun _ _ => ⟨nofun, fun ⟨_, inNone, _⟩ => absurd inNone (Language.notMem_zero _)⟩
  | alternative :: others, ordered => by
    obtain ⟨ofFirst, ofOthers⟩ := Bool.and_eq_true_iff.mp ordered
    exact (spell_ways alternative ofFirst).either (spell_waysOfAny others ofOthers)

theorem spell_waysInOrder : (items : List Pattern) → haveOrderedBounds items = true →
    Ways.Spell (waysInOrder items) (languageInOrder items)
  | [], _ => Ways.spell_nothing
  | item :: others, ordered => by
    obtain ⟨ofFirst, ofOthers⟩ := Bool.and_eq_true_iff.mp ordered
    exact (spell_ways item ofFirst).inOrder (spell_waysInOrder others ofOthers)

end

/-! ### Shortest runs -/

/-- A run of the language is no shorter than the shortest match, of which there is one. -/
theorem shortest_le_of_mem {pattern : Pattern} (ordered : pattern.hasOrderedBounds = true)
    {run : List String} (inLanguage : run ∈ pattern.language) :
    ∃ least, pattern.shortest = some least ∧ least ≤ run.length := by
  have isWay := (spell_ways pattern ordered).mem inLanguage []
  obtain ⟨least, isLeast, within⟩ := (takeAtLeast_shortest pattern).le isWay
  rw [List.append_nil] at within
  exact ⟨least, isLeast, within⟩

theorem flatten_replicate_mem_pow {language : Language String} {run : List String}
    (inLanguage : run ∈ language) (count : Nat) :
    (List.replicate count run).flatten ∈ language ^ count :=
  Language.mem_pow.mpr ⟨List.replicate count run, rfl, List.length_replicate,
    fun _ member => List.eq_of_mem_replicate member ▸ inLanguage⟩

mutual

/-- A shortest match is that of a run of the language. -/
theorem exists_mem_of_shortest : (pattern : Pattern) → pattern.hasOrderedBounds = true →
    ∀ {least}, pattern.shortest = some least → ∃ run ∈ pattern.language, run.length = least
  | exactly tag, _, _, isLeast => ⟨[tag], rfl, Option.some.inj isLeast⟩
  | startingWith stem, _, _, isLeast =>
    ⟨[stem], ⟨stem, List.prefix_rfl, rfl⟩, Option.some.inj isLeast⟩
  | alternation alternatives, ordered, _, isLeast =>
    exists_mem_of_shortestOfAny alternatives ordered isLeast
  | repetition body least most, ordered, _, isLeast => by
    obtain ⟨inOrder, ordered⟩ := le_of_hasOrderedBounds ordered
    rw [shortest] at isLeast
    split at isLeast
    · rename_i noneRequired
      cases isLeast
      refine ⟨[], ?_, rfl⟩
      rw [language, noneRequired]
      exact Ways.nil_mem_languageBetween _ most
    -- The shortest run is so many copies of a shortest run of the body as are required.
    · obtain ⟨each, isEach, rfl⟩ := Option.map_eq_some_iff.mp isLeast
      obtain ⟨run, inLanguage, rfl⟩ := exists_mem_of_shortest body ordered isEach
      refine ⟨(List.replicate least run).flatten,
        ⟨least, Nat.le_refl least, inOrder, flatten_replicate_mem_pow inLanguage least⟩, ?_⟩
      simp [Nat.mul_comm]
  | sequence items, ordered, _, isLeast => exists_mem_of_shortestOfAll items ordered isLeast

theorem exists_mem_of_shortestOfAny : (alternatives : List Pattern) →
    haveOrderedBounds alternatives = true → ∀ {least}, shortestOfAny alternatives = some least →
    ∃ run ∈ languageOfAny alternatives, run.length = least
  | [], _, _, isLeast => nomatch isLeast
  | alternative :: others, ordered, least, isLeast => by
    obtain ⟨ofFirst, ofOthers⟩ := Bool.and_eq_true_iff.mp ordered
    have fromFirst {length : Nat} (isShortest : alternative.shortest = some length) :
        ∃ run ∈ languageOfAny (alternative :: others), run.length = length := by
      obtain ⟨run, inLanguage, isLength⟩ := exists_mem_of_shortest alternative ofFirst isShortest
      exact ⟨run, Or.inl inLanguage, isLength⟩
    have fromOthers {length : Nat} (isShortest : shortestOfAny others = some length) :
        ∃ run ∈ languageOfAny (alternative :: others), run.length = length := by
      obtain ⟨run, inLanguage, isLength⟩ := exists_mem_of_shortestOfAny others ofOthers isShortest
      exact ⟨run, Or.inr inLanguage, isLength⟩
    rw [shortestOfAny] at isLeast
    split at isLeast
    · rename_i left right isLeft isRight
      cases isLeast
      rcases Nat.le_total left right with smaller | smaller
      · rw [Nat.min_eq_left smaller]
        exact fromFirst isLeft
      · rw [Nat.min_eq_right smaller]
        exact fromOthers isRight
    · rename_i isLeft _
      exact fromFirst (isLeft.trans isLeast)
    · exact fromOthers isLeast

theorem exists_mem_of_shortestOfAll : (items : List Pattern) →
    haveOrderedBounds items = true → ∀ {least}, shortestOfAll items = some least →
    ∃ run ∈ languageInOrder items, run.length = least
  | [], _, _, isLeast => ⟨[], rfl, Option.some.inj isLeast⟩
  | item :: others, ordered, _, isLeast => by
    obtain ⟨ofFirst, ofOthers⟩ := Bool.and_eq_true_iff.mp ordered
    rw [shortestOfAll] at isLeast
    split at isLeast
    · rename_i left right isLeft isRight
      cases isLeast
      obtain ⟨run, inLanguage, rfl⟩ := exists_mem_of_shortest item ofFirst isLeft
      obtain ⟨more, inOthers, rfl⟩ := exists_mem_of_shortestOfAll others ofOthers isRight
      exact ⟨run ++ more, Language.append_mem_mul inLanguage inOthers, List.length_append⟩
    · cases isLeast

end

/-- A pattern is nullable just if its language has the empty run. -/
theorem isNullable_iff {pattern : Pattern} (ordered : pattern.hasOrderedBounds = true) :
    pattern.isNullable = true ↔ [] ∈ pattern.language := by
  have isZero : pattern.isNullable = true ↔ pattern.shortest = some 0 := by
    rw [isNullable, beq_iff_eq, minLength_eq]
    cases pattern.shortest with
    | none => exact ⟨nofun, nofun⟩
    | some least =>
      have someRoom : 0 < lengthLimit := by decide
      rw [Option.map_some, Option.some.injEq, Option.some.injEq]
      omega
  rw [isZero]
  constructor
  · intro isLeast
    obtain ⟨run, inLanguage, isLength⟩ := exists_mem_of_shortest pattern ordered isLeast
    exact List.eq_nil_of_length_eq_zero isLength ▸ inLanguage
  · intro inLanguage
    obtain ⟨least, isLeast, within⟩ := shortest_le_of_mem ordered inLanguage
    rw [isLeast, Nat.le_zero.mp within]

/-- A shortest match is as long as the shortest runs of the language. -/
theorem isLeast_of_shortest {pattern : Pattern} (ordered : pattern.hasOrderedBounds = true)
    {least : Nat} (isShortest : pattern.shortest = some least) :
    IsLeast (List.length '' pattern.language) least := by
  refine ⟨exists_mem_of_shortest pattern ordered isShortest, ?_⟩
  rintro _ ⟨run, inLanguage, rfl⟩
  obtain ⟨other, isOther, within⟩ := shortest_le_of_mem ordered inLanguage
  rwa [Option.some.inj (isShortest.symm.trans isOther)]

/-- The length of a shortest match is exact up to the limit for lengths, whatever products and sums
reach it on the way. There is none just if no run matches, and it is zero just if the empty run
does. -/
theorem minLength_is_exact {pattern : Pattern} (ordered : pattern.hasOrderedBounds = true) :
    (pattern.minLength = none ↔ ∀ run, run ∉ pattern.language) ∧
    (∀ run ∈ pattern.language, ∃ least, IsLeast (List.length '' pattern.language) least ∧
      pattern.minLength = some (min least (2 ^ 64 - 1))) ∧
    (pattern.isNullable = true ↔ [] ∈ pattern.language) := by
  refine ⟨?_, ?_, isNullable_iff ordered⟩
  · rw [minLength_eq, Option.map_eq_none_iff]
    constructor
    · intro noShortest run inLanguage
      obtain ⟨least, isShortest, _⟩ := shortest_le_of_mem ordered inLanguage
      exact nomatch noShortest.symm.trans isShortest
    · intro noRun
      refine Option.eq_none_iff_forall_not_mem.mpr fun least isShortest => ?_
      obtain ⟨run, inLanguage, _⟩ := exists_mem_of_shortest pattern ordered isShortest
      exact noRun run inLanguage
  · intro run inLanguage
    obtain ⟨least, isShortest, _⟩ := shortest_le_of_mem ordered inLanguage
    refine ⟨least, isLeast_of_shortest ordered isShortest, ?_⟩
    rw [minLength_eq, isShortest]
    rfl

/-- Copies of copies of copies, as many as a bound can ask for, with a choice that cannot be taken. -/
def towering : Pattern :=
  sequence [
    repetition (repetition (repetition (alternation [alternation [], startingWith "NN"])
      4294967295 none) 4294967295 none) 4294967295 none,
    optional (alternation [])]

/-- A shortest run has more symbols than are counted. -/
theorem minLength_is_exact_towering :
    towering.hasOrderedBounds = true ∧ towering.minLength = some (2 ^ 64 - 1) ∧
      ∃ run ∈ towering.language, ∃ least, IsLeast (List.length '' towering.language) least ∧
        2 ^ 64 - 1 ≤ least := by
  have ordered : towering.hasOrderedBounds = true := by decide
  have isLimit : towering.minLength = some (2 ^ 64 - 1) := by decide +kernel
  obtain ⟨unmatched, isExact, _⟩ := minLength_is_exact ordered
  have someRun : ∃ run, run ∈ towering.language := by
    by_contra noRun
    exact nomatch isLimit.symm.trans (unmatched.mpr (not_exists.mp noRun))
  obtain ⟨run, inLanguage⟩ := someRun
  obtain ⟨least, isLeast, isLength⟩ := isExact run inLanguage
  have reachesLimit := Option.some.inj (isLimit.symm.trans isLength)
  exact ⟨ordered, isLimit, run, inLanguage, least, isLeast, by omega⟩

/-! ### Ignored symbols -/

/-- Whether a pattern is no test that a symbol passes, whatever the patterns within it are. -/
def Rejects : Pattern → String → Prop
  | exactly tag, symbol => tag ≠ symbol
  | startingWith stem, symbol => ¬stem.toList <+: symbol.toList
  | alternation _, _ | repetition _ _ _, _ | sequence _, _ => True

/-- Whether no part of a pattern is a test that a symbol passes. -/
def Ignores (pattern : Pattern) (symbol : String) : Prop :=
  ∀ part ∈ pattern.parts, part.Rejects symbol

instance (part : Pattern) (symbol : String) : Decidable (part.Rejects symbol) :=
  match part with
  | exactly tag => inferInstanceAs (Decidable (tag ≠ symbol))
  | startingWith stem => inferInstanceAs (Decidable ¬stem.toList <+: symbol.toList)
  | alternation _ | repetition _ _ _ | sequence _ => inferInstanceAs (Decidable True)

instance (pattern : Pattern) (symbol : String) : Decidable (pattern.Ignores symbol) :=
  inferInstanceAs (Decidable (∀ part ∈ pattern.parts, part.Rejects symbol))

mutual

/-- No run of the language holds a symbol that the pattern ignores. -/
theorem not_mem_of_ignores {symbol : String} : (pattern : Pattern) → pattern.Ignores symbol →
    ∀ run ∈ pattern.language, symbol ∉ run
  | exactly tag, ignores, run, inLanguage => by
    obtain rfl : run = [tag] := inLanguage
    exact fun member => ignores (exactly tag) (List.mem_singleton_self _)
      (List.mem_singleton.mp member).symm
  | startingWith stem, ignores, run, inLanguage => by
    obtain ⟨other, begins, rfl⟩ := inLanguage
    intro member
    rw [← List.mem_singleton.mp member] at begins
    exact ignores (startingWith stem) (List.mem_singleton_self _) begins
  | alternation alternatives, ignores, run, inLanguage => by
    rw [Ignores, parts, List.forall_mem_cons] at ignores
    exact not_mem_of_ignoresAny alternatives ignores.2 run inLanguage
  | repetition body least most, ignores, run, inLanguage => by
    rw [Ignores, parts, List.forall_mem_cons] at ignores
    obtain ⟨count, _, _, isRun⟩ := inLanguage
    obtain ⟨runs, rfl, _, areRuns⟩ := Language.mem_pow.mp isRun
    intro member
    obtain ⟨copy, isCopy, inCopy⟩ := List.mem_flatten.mp member
    exact not_mem_of_ignores body ignores.2 copy (areRuns copy isCopy) inCopy
  | sequence items, ignores, run, inLanguage => by
    rw [Ignores, parts, List.forall_mem_cons] at ignores
    exact not_mem_of_ignoresInOrder items ignores.2 run inLanguage

theorem not_mem_of_ignoresAny {symbol : String} : (alternatives : List Pattern) →
    (∀ part ∈ partsOfAll alternatives, part.Rejects symbol) →
    ∀ run ∈ languageOfAny alternatives, symbol ∉ run
  | [], _, run, inLanguage => absurd inLanguage (Language.notMem_zero run)
  | alternative :: others, ignores, run, inLanguage => by
    obtain ⟨ofFirst, ofOthers⟩ := List.forall_mem_append.mp ignores
    rcases inLanguage with inFirst | inOthers
    · exact not_mem_of_ignores alternative ofFirst run inFirst
    · exact not_mem_of_ignoresAny others ofOthers run inOthers

theorem not_mem_of_ignoresInOrder {symbol : String} : (items : List Pattern) →
    (∀ part ∈ partsOfAll items, part.Rejects symbol) →
    ∀ run ∈ languageInOrder items, symbol ∉ run
  | [], _, run, inLanguage => by
    rw [(Language.mem_one run).mp inLanguage]
    exact List.not_mem_nil
  | item :: others, ignores, run, inLanguage => by
    obtain ⟨ofFirst, ofOthers⟩ := List.forall_mem_append.mp ignores
    obtain ⟨first, inFirst, rest, inRest, rfl⟩ := Language.mem_mul.mp inLanguage
    rw [List.mem_append, not_or]
    exact ⟨not_mem_of_ignores item ofFirst first inFirst,
      not_mem_of_ignoresInOrder others ofOthers rest inRest⟩

end

end ShallowParse.Pattern
