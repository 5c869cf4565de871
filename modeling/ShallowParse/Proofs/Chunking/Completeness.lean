/-
This file proves that a rule misses nothing. A pass parts the nodes into those that stay
and those that become phrases. If the pattern of the rule keeps its preference, then the
symbols of a phrase are a run of its language, and no run of the language begins with a
node that stays. Nodes that stay side by side were side by side before the pass.
-/

import ShallowParse.Proofs.Chunking.Rewriting
import ShallowParse.Proofs.Grammar.Requirements

namespace ShallowParse

open Segment

/-! ### Runs that are taken -/

namespace Pattern

/-- The preferred match leaves what comes after the symbols that it takes. -/
theorem head?_of_taken {pattern : Pattern} {run rest : List String}
    (taken : pattern.taken (run ++ rest) = some run.length) :
    (pattern.ways (run ++ rest)).head? = some rest := by
  rw [Pattern.taken] at taken
  split at taken
  · cases taken
  · rename_i left isFirst
    obtain ⟨other, sameSymbols⟩ := exists_taken (List.mem_of_head? isFirst)
    rw [sameSymbols] at taken
    split at taken
    · rw [List.length_append, Nat.add_sub_cancel] at taken
      have sameRest := (List.append_inj sameSymbols (Option.some.inj taken).symm).2
      exact isFirst.trans (congrArg some sameRest.symm)
    · cases taken

variable {pattern : Pattern} (ordered : pattern.hasOrderedBounds = true)

include ordered

/-- The symbols of the preferred match are a run of the language. -/
theorem mem_language_of_taken {run rest : List String}
    (taken : pattern.taken (run ++ rest) = some run.length) : run ∈ pattern.language := by
  obtain ⟨other, inLanguage, sameSymbols⟩ :=
    (spell_ways pattern ordered _ rest).mp (List.mem_of_head? (head?_of_taken taken))
  rwa [List.append_cancel_right sameSymbols]

/-- Where there is no preferred match, no run of the language begins the symbols. -/
theorem not_isPrefix_of_taken (notNullable : pattern.isNullable = false) {symbols : List String}
    (unmatched : pattern.taken symbols = none) :
    ∀ run ∈ pattern.language, ¬run <+: symbols := by
  rintro run inLanguage ⟨rest, rfl⟩
  have isWay := (spell_ways pattern ordered).mem inLanguage rest
  rw [Pattern.taken] at unmatched
  split at unmatched
  · rename_i noWay
    rw [List.head?_eq_none_iff.mp noWay] at isWay
    cases isWay
  · rename_i left isFirst
    obtain ⟨other, isOther, sameSymbols⟩ :=
      (spell_ways pattern ordered _ left).mp (List.mem_of_head? isFirst)
    split at unmatched
    · cases unmatched
    · rename_i notShorter
      rw [sameSymbols, List.length_append] at notShorter
      have isNil : other = [] := List.eq_nil_of_length_eq_zero (by omega)
      have nullable := (isNullable_iff ordered).mpr (isNil ▸ isOther)
      exact Bool.false_ne_true (notNullable.symm.trans nullable)

end Pattern

/-! ### Segments of one rule -/

namespace Segment

variable {label : String} {segment : Segment} {node : Node}

/-- A node without the label of the rule stayed. -/
theorem eq_kept_of_result (isResult : result label segment = node) (other : node.symbol ≠ label) :
    segment = kept node := by
  cases segment with
  | kept same => exact congrArg kept isResult
  | built first others =>
    subst isResult
    exact absurd rfl other

theorem eq_kept_of_result_leaf {token : Token} (isResult : result label segment = .leaf token) :
    segment = kept (.leaf token) := by
  cases segment with
  | kept same => exact congrArg kept isResult
  | built first others => cases isResult

/-- A word that is left after a pass stayed. -/
theorem exists_kept_of_leaf {segments : List Segment} {token : Token}
    (member : .leaf token ∈ segments.map (result label)) :
    ∃ before after, segments = before ++ kept (.leaf token) :: after := by
  obtain ⟨segment, isSegment, isResult⟩ := List.mem_map.mp member
  obtain ⟨before, after, rfl⟩ := List.append_of_mem isSegment
  exact ⟨before, after, by rw [eq_kept_of_result_leaf isResult]⟩

/-- Nodes side by side after a pass come from segments side by side. -/
theorem exists_adjacent {segments : List Segment} {before after : List Node} {first next : Node}
    (isRow : segments.map (result label) = before ++ first :: next :: after) :
    ∃ earlier segment following later, segments = earlier ++ segment :: following :: later ∧
      result label segment = first ∧ result label following = next := by
  obtain ⟨earlier, _, rfl, _, isRest⟩ := List.map_eq_append_iff.mp isRow
  obtain ⟨segment, _, rfl, isFirst, isRest⟩ := List.map_eq_cons_iff.mp isRest
  obtain ⟨following, later, rfl, isNext, _⟩ := List.map_eq_cons_iff.mp isRest
  exact ⟨earlier, segment, following, later, rfl, isFirst, isNext⟩

/-- A node below those that a pass leaves was there before, or is a new phrase. -/
theorem descendants_result {segments : List Segment}
    (member : node ∈ Node.descendantsOfAll (segments.map (result label))) :
    node ∈ Node.descendantsOfAll (nodesOfAll segments) ∨
      ∃ before first others after, segments = before ++ built first others :: after ∧
        node = .phrase label (first :: others) := by
  obtain ⟨_, isResult, below⟩ := Node.mem_descendantsOfAll_iff_exists.mp member
  obtain ⟨segment, isSegment, rfl⟩ := List.mem_map.mp isResult
  have inSegment {ancestor : Node} (isNode : ancestor ∈ segment.nodes)
      (isBelow : node ∈ ancestor.withDescendants) :
      node ∈ Node.descendantsOfAll (nodesOfAll segments) :=
    Node.mem_descendantsOfAll_iff_exists.mpr
      ⟨ancestor, List.mem_flatMap.mpr ⟨segment, isSegment, isNode⟩, isBelow⟩
  cases segment with
  | kept same => exact Or.inl (inSegment (List.mem_singleton_self same) below)
  | built first others =>
    rcases List.mem_cons.mp below with isNew | below
    · obtain ⟨before, after, parted⟩ := List.append_of_mem isSegment
      exact Or.inr ⟨before, first, others, after, parted, isNew⟩
    · obtain ⟨ancestor, isNode, isBelow⟩ := Node.mem_descendantsOfAll_iff_exists.mp below
      exact Or.inl (inSegment isNode isBelow)

end Segment

/-! ### Labels -/

/-- Whether the phrases of a row have no other labels. -/
def HasLabels (labels : List String) (row : List Node) : Prop :=
  ∀ label children, .phrase label children ∈ row → label ∈ labels

/-- The phrases of a row that a pass leaves have the labels of those before, or the new one. -/
theorem hasLabels_result {labels : List String} {label : String} {segments : List Segment}
    (ofNodes : HasLabels labels (nodesOfAll segments)) :
    HasLabels (label :: labels) (segments.map (result label)) := by
  intro name children member
  obtain ⟨segment, isSegment, isResult⟩ := List.mem_map.mp member
  cases segment with
  | kept node =>
    have isNode : node ∈ nodesOfAll segments :=
      List.mem_flatMap.mpr ⟨kept node, isSegment, List.mem_singleton_self node⟩
    obtain rfl : node = .phrase name children := isResult
    exact List.mem_cons_of_mem label (ofNodes name children isNode)
  | built first others =>
    cases isResult
    exact List.mem_cons_self

/-- What has another symbol than the labels is a word. -/
theorem HasLabels.exists_leaf {labels : List String} {row : List Node}
    (has : HasLabels labels row) {node : Node} (member : node ∈ row)
    (other : node.symbol ∉ labels) : ∃ token, node = .leaf token := by
  cases node with
  | leaf token => exact ⟨token, rfl⟩
  | phrase label children => exact absurd (has label children member) other

/-! ### Parts of a row -/

namespace ReadyRule

/-- A sound rule whose pattern keeps its preference. -/
structure IsExact (ready : ReadyRule) : Prop where
  sound : ready.IsSound
  keeps : ready.rule.pattern.KeepsPreference

/-- Whether a pass of the rule parts nodes into segments. -/
structure Parts (ready : ReadyRule) (nodes : List Node) (segments : List Segment) : Prop where
  areNodes : nodesOfAll segments = nodes
  answers : ready.Answers (symbolText nodes) 0 segments

/-- A rule rewrites nodes segment by segment. -/
theorem exists_parts (ready : ReadyRule) (nodes : List Node) :
    ∃ segments, ready.Parts nodes segments ∧
      ready.rewrite nodes = segments.map (result ready.rule.label) := by
  obtain ⟨segments, rfl, answers, _⟩ := ready.exists_segments 0 nodes
  exact ⟨segments, ⟨rfl, answers⟩, ready.rewrite_nodesOfAll _ segments 0 rfl answers⟩

namespace Parts

variable {ready : ReadyRule} {nodes : List Node} {before after : List Segment}

/-- The nodes of a segment stand together before the pass. -/
theorem nodes_eq {segment : Segment} (parts : ready.Parts nodes (before ++ segment :: after)) :
    nodes = nodesOfAll before ++ (segment.nodes ++ nodesOfAll after) := by
  rw [← parts.areNodes, nodesOfAll, List.flatMap_append, List.flatMap_cons]
  rfl

/-- At the first node of a segment the matcher answers what the segment says. -/
theorem matchAt_eq {segment : Segment} (parts : ready.Parts nodes (before ++ segment :: after)) :
    ready.matcher.matchAt (symbolText (segment.nodes ++ nodesOfAll after)) 0 =
      segment.answer := by
  obtain ⟨_, here, _⟩ :=
    (ready.answers_append _ 0 before (segment :: after)).mp parts.answers
  rw [Nat.zero_add] at here
  rw [← here]
  refine ready.matchAt_symbolText ?_
  rw [parts.nodes_eq, List.drop_left]

theorem taken_eq (exact : ready.IsExact) {segment : Segment}
    (parts : ready.Parts nodes (before ++ segment :: after)) :
    ready.rule.pattern.taken ((segment.nodes ++ nodesOfAll after).map Node.symbol) =
      segment.answer := by
  rw [← parts.matchAt_eq]
  exact (Pattern.matchAt_eq_taken exact.sound.faultless exact.sound.ready exact.keeps _ 0).symm

/-- The symbols of a new phrase are a run of the language. -/
theorem mem_language (exact : ready.IsExact) {first : Node} {others : List Node}
    (parts : ready.Parts nodes (before ++ built first others :: after)) :
    (first :: others).map Node.symbol ∈ ready.rule.pattern.language := by
  have ordered := Pattern.hasOrderedBounds_of_faultless _ exact.sound.faultless
  have taken := parts.taken_eq exact
  rw [List.map_append] at taken
  refine Pattern.mem_language_of_taken ordered (taken.trans ?_)
  rw [List.length_map]
  rfl

/-- No run of the language begins with a node that stays. -/
theorem not_isPrefix (exact : ready.IsExact) {node : Node}
    (parts : ready.Parts nodes (before ++ kept node :: after)) :
    ∀ run ∈ ready.rule.pattern.language,
      ¬run <+: node.symbol :: (nodesOfAll after).map Node.symbol :=
  Pattern.not_isPrefix_of_taken
    (Pattern.hasOrderedBounds_of_faultless _ exact.sound.faultless) exact.sound.notNullable
    (parts.taken_eq exact)

/-- The tag of a word that stays is no run of the language. -/
theorem not_mem_language_of_leaf (exact : ready.IsExact) {segments : List Segment}
    {label : String} {token : Token} (parts : ready.Parts nodes segments)
    (member : .leaf token ∈ segments.map (result label)) :
    [token.tag] ∉ ready.rule.pattern.language := by
  obtain ⟨_, _, rfl⟩ := exists_kept_of_leaf member
  exact fun inLanguage => parts.not_isPrefix exact [token.tag] inLanguage
    (List.cons_prefix_cons.mpr ⟨rfl, List.nil_prefix⟩)

end Parts

end ReadyRule

end ShallowParse
