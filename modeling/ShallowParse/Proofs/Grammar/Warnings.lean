/-
This file says which warnings a grammar gives. There is one just where the pattern of a
rule names in full a label of the grammar that no rule before it has, and the label of
the rule itself does not count as one before it. Warnings come in the order of the rules,
and those for one rule in the byte order of the labels.
-/

import ShallowParse.Grammar
import ShallowParse.Proofs.Pattern.Parts
import ShallowParse.Proofs.Text.Sorted

namespace ShallowParse

/-! ### Symbols named in full -/

namespace Pattern

mutual

theorem mem_namedTags_iff {symbol : String} : (pattern : Pattern) →
    (symbol ∈ pattern.namedTags ↔ exactly symbol ∈ pattern.parts)
  | exactly tag => by
    rw [namedTags, parts, List.mem_singleton, List.mem_singleton, exactly.injEq]
  | startingWith stem => by
    rw [namedTags, parts, List.mem_singleton]
    exact iff_of_false List.not_mem_nil nofun
  | alternation alternatives => by
    rw [namedTags, parts, List.mem_cons, mem_namedTagsOfAll_iff alternatives]
    exact (or_iff_right nofun).symm
  | repetition body least most => by
    rw [namedTags, parts, List.mem_cons, mem_namedTags_iff body]
    exact (or_iff_right nofun).symm
  | sequence items => by
    rw [namedTags, parts, List.mem_cons, mem_namedTagsOfAll_iff items]
    exact (or_iff_right nofun).symm

theorem mem_namedTagsOfAll_iff {symbol : String} : (patterns : List Pattern) →
    (symbol ∈ namedTagsOfAll patterns ↔ exactly symbol ∈ partsOfAll patterns)
  | [] => iff_of_false List.not_mem_nil List.not_mem_nil
  | pattern :: patterns => by
    rw [namedTagsOfAll, partsOfAll, List.mem_append, List.mem_append, mem_namedTags_iff pattern,
      mem_namedTagsOfAll_iff patterns]

end

theorem mem_symbols_iff {pattern : Pattern} {symbol : String} :
    symbol ∈ pattern.symbols ↔ exactly symbol ∈ pattern.parts := by
  rw [symbols, Text.mem_sorted, mem_namedTags_iff]

end Pattern

/-! ### Rules -/

/-- Whether a warning is about a rule and a label of some rule that the pattern of the rule names in
full, and that no rule before it has. -/
def GrammarWarning.IsDue (rules : List Rule) (warning : GrammarWarning) : Prop :=
  ∃ rule, rules[warning.index]? = some rule ∧ warning.label = rule.label ∧
    .exactly warning.symbol ∈ rule.pattern.parts ∧ warning.symbol ∈ rules.map Rule.label ∧
    warning.symbol ∉ (rules.take warning.index).map Rule.label

/-- Whether a warning comes before another one: it is about an earlier rule, or about the same rule
and a label with smaller bytes. -/
def GrammarWarning.Precedes (first second : GrammarWarning) : Prop :=
  first.index < second.index ∨
    first.index = second.index ∧ Text.bytes first.symbol < Text.bytes second.symbol

namespace Grammar

/-- The warnings for some rules, when others come before them. -/
theorem mem_warningsFrom_iff {labels produced : List String} {index : Nat} {rules : List Rule}
    {warning : GrammarWarning} :
    warning ∈ warningsFrom labels produced index rules ↔
      ∃ place rule, rules[place]? = some rule ∧ warning.index = index + place ∧
        warning.label = rule.label ∧ .exactly warning.symbol ∈ rule.pattern.parts ∧
        warning.symbol ∈ labels ∧ warning.symbol ∉ produced ∧
        warning.symbol ∉ (rules.take place).map Rule.label := by
  induction rules generalizing produced index with
  | nil => exact iff_of_false List.not_mem_nil nofun
  | cons rule rules inductionHypothesis =>
    rw [warningsFrom, List.mem_append, inductionHypothesis, List.mem_map]
    simp only [List.mem_filter, Pattern.mem_symbols_iff, Bool.and_eq_true, Bool.not_eq_true',
      List.contains_eq_mem, decide_eq_true_eq, decide_eq_false_iff_not]
    constructor
    · rintro (⟨symbol, ⟨isNamed, isLabel, notProduced⟩, rfl⟩ |
        ⟨place, other, isRule, isIndex, sameLabel, isNamed, isLabel, notProduced, notEarlier⟩)
      · exact ⟨0, rule, rfl, rfl, rfl, isNamed, isLabel, notProduced, List.not_mem_nil⟩
      · rw [List.mem_cons, not_or] at notProduced
        refine ⟨place + 1, other, isRule, by omega, sameLabel, isNamed, isLabel, notProduced.2, ?_⟩
        rw [List.take_succ_cons, List.map_cons, List.mem_cons, not_or]
        exact ⟨notProduced.1, notEarlier⟩
    · rintro ⟨place, other, isRule, isIndex, sameLabel, isNamed, isLabel, notProduced, notEarlier⟩
      cases place with
      | zero =>
        obtain rfl := Option.some.inj isRule
        refine Or.inl ⟨warning.symbol, ⟨isNamed, isLabel, notProduced⟩, ?_⟩
        rw [← sameLabel, ← Nat.add_zero index, ← isIndex]
      | succ place =>
        rw [List.take_succ_cons, List.map_cons, List.mem_cons, not_or] at notEarlier
        refine Or.inr ⟨place, other, isRule, by omega, sameLabel, isNamed, isLabel, ?_,
          notEarlier.2⟩
        exact fun member => (List.mem_cons.mp member).elim notEarlier.1 notProduced

/-- Warnings are in order, so none is given twice. -/
theorem pairwise_warningsFrom (labels produced : List String) (index : Nat) (rules : List Rule) :
    (warningsFrom labels produced index rules).Pairwise GrammarWarning.Precedes := by
  induction rules generalizing produced index with
  | nil => exact List.Pairwise.nil
  | cons rule rules inductionHypothesis =>
    rw [warningsFrom]
    refine List.pairwise_append.mpr ⟨?_, inductionHypothesis _ _, ?_⟩
    · exact List.pairwise_map.mpr
        (((Text.pairwise_sorted _).filter _).imp fun smaller => Or.inr ⟨rfl, smaller⟩)
    · intro first isFirst second isSecond
      obtain ⟨_, _, rfl⟩ := List.mem_map.mp isFirst
      obtain ⟨place, _, _, isIndex, _⟩ := mem_warningsFrom_iff.mp isSecond
      refine Or.inl (?_ : index < second.index)
      omega

/-- A grammar gives the warnings that are due. -/
theorem mem_warnings_iff (grammar : Grammar) (warning : GrammarWarning) :
    warning ∈ grammar.warnings ↔ warning.IsDue grammar.rules := by
  rw [warnings, mem_warningsFrom_iff, GrammarWarning.IsDue]
  constructor
  · rintro ⟨place, rule, isRule, isIndex, sameLabel, isNamed, isLabel, _, notEarlier⟩
    rw [Nat.zero_add] at isIndex
    exact ⟨rule, isIndex ▸ isRule, sameLabel, isNamed, isLabel, isIndex ▸ notEarlier⟩
  · rintro ⟨rule, isRule, sameLabel, isNamed, isLabel, notEarlier⟩
    exact ⟨warning.index, rule, isRule, (Nat.zero_add _).symm, sameLabel, isNamed, isLabel,
      List.not_mem_nil, notEarlier⟩

end Grammar

end ShallowParse
