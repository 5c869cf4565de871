/-
This file proves what becomes of a grammar that is read from a text, written and read
again. Its canonical text stands for the same labels, has the same warnings and is
written again as it is. It also makes the same of every sentence, unless a rule has
alternatives that are factored by themselves, inside other alternatives. No brackets
are written for these, so the second reading no longer sets them apart.
-/

import ShallowParse.Proofs.Chunking.Alike
import ShallowParse.Proofs.Grammar.Acceptance
import ShallowParse.Proofs.Notation.RuleTexts
import ShallowParse.Proofs.Pattern.RoundTrip

namespace ShallowParse

/-! ### Rules read again -/

namespace ReadyRule

/-- The rule with its pattern read again. -/
def reread (ready : ReadyRule) : ReadyRule :=
  ready.rule.reread.madeReady

/-- A sound rule stays so when it is read again, if its pattern can be made ready. -/
theorem IsSound.reread_iff {ready : ReadyRule} (sound : ready.IsSound) :
    ready.reread.IsSound ↔
      ∃ matcher, Matcher.ofPattern ready.rule.pattern.reread = .ok matcher := by
  refine ⟨fun soundAgain => ⟨_, soundAgain.ready⟩, ?_⟩
  rintro ⟨matcher, isReady⟩
  have sameLength : ready.rule.pattern.reread.minLength = ready.rule.pattern.minLength := by
    rw [Pattern.minLength_eq, Pattern.shortest_reread, Pattern.minLength_eq]
  have notNullable : ready.rule.pattern.reread.isNullable = false := by
    rw [Pattern.isNullable, sameLength]
    exact sound.notNullable
  have isMatcher : matcher = ready.reread.matcher :=
    congrArg Matcher.mk (Pattern.regex_of_ready isReady)
  exact ⟨sound.labelled, Pattern.fault?_reread sound.faultless, notNullable, isMatcher ▸ isReady⟩

end ReadyRule

namespace Pattern

/-- Whether a pattern is sure to match alike when it is read again: every alternation directly inside
another one keeps its alternatives, or the preference is kept by both patterns. -/
def MatchesAlike (pattern : Pattern) : Prop :=
  pattern.keepsNested = true ∨ pattern.KeepsPreference ∧ pattern.reread.KeepsPreference

end Pattern

theorem ReadyRule.alike_reread {ready : ReadyRule} (isRead : ready.rule.IsRead)
    (sound : ready.IsSound) (soundAgain : ready.reread.IsSound)
    (matchesAlike : ready.rule.pattern.MatchesAlike) : ready.Alike ready.reread where
  label := rfl
  matchAt symbols index := by
    rcases matchesAlike with keeps | ⟨keeps, keepsAgain⟩
    -- The expressions are equal here, but only prefer the same ways in the other case.
    · have sameMatcher : ready.reread.matcher = ready.matcher :=
        Except.ok.inj (soundAgain.ready.symm.trans
          (Pattern.ofPattern_reread isRead.pattern.writable keeps sound.ready))
      rw [sameMatcher]
    · exact Pattern.matchAt_reread sound.faultless sound.ready soundAgain.ready keeps keepsAgain
        symbols index

/-! ### Grammars read again -/

namespace Grammar

/-- The grammar with all rules read again. -/
def reread (grammar : Grammar) : Grammar :=
  ⟨grammar.ready.map ReadyRule.reread⟩

theorem rules_reread (grammar : Grammar) : grammar.reread.rules = grammar.rules.map Rule.reread := by
  rw [rules, rules, reread, List.map_map, List.map_map]
  rfl

theorem labels_reread (grammar : Grammar) :
    grammar.reread.rules.map Rule.label = grammar.rules.map Rule.label := by
  rw [rules_reread, List.map_map]
  rfl

theorem warningsFrom_reread (labels produced : List String) (index : Nat) (rules : List Rule) :
    warningsFrom labels produced index (rules.map Rule.reread) =
      warningsFrom labels produced index rules := by
  induction rules generalizing produced index with
  | nil => rfl
  | cons rule rules inductionHypothesis =>
    have sameSymbols : rule.reread.pattern.symbols = rule.pattern.symbols :=
      congrArg Text.sorted (Pattern.namedTags_reread rule.pattern)
    rw [List.map_cons, warningsFrom, warningsFrom, sameSymbols, inductionHypothesis]
    rfl

theorem warnings_reread (grammar : Grammar) : grammar.reread.warnings = grammar.warnings := by
  rw [warnings, warnings, labels_reread, rules_reread, warningsFrom_reread]

theorem written_reread {grammar : Grammar} (areRead : ∀ rule ∈ grammar.rules, rule.IsRead) :
    grammar.reread.written = grammar.written := by
  rw [written, rules_reread, List.map_map, written]
  refine congrArg String.join (List.map_congr_left fun rule member => ?_)
  show Rule.written ⟨rule.label, rule.pattern.reread⟩ ++ "\n" = _
  rw [Rule.written, Pattern.written_reread (areRead rule member).pattern.collapsed]
  rfl

/-- A text that is accepted holds rules that can be written, and its grammar is that of these. -/
theorem isRead_of_ofText {text : String} {grammar : Grammar} (accepted : ofText text = .ok grammar) :
    (∀ rule ∈ grammar.rules, rule.IsRead) ∧ ∀ ready ∈ grammar.ready, ready.IsSound := by
  obtain ⟨rules, read, accepted⟩ := Outcome.bind_eq_ok_iff.mp accepted
  obtain ⟨rfl, sound⟩ := (ofRules_eq_ok_iff rules grammar).mp accepted
  exact ⟨Rule.isRead_of_allOfText (Outcome.mapError_eq_ok_iff.mp read), sound⟩

section

variable {grammar : Grammar} (areRead : ∀ rule ∈ grammar.rules, rule.IsRead)
  (sound : ∀ ready ∈ grammar.ready, ready.IsSound)

include areRead sound

theorem allOfText_written : Rule.allOfText grammar.written = .ok (grammar.rules.map Rule.reread) := by
  refine Rule.allOfText_written areRead fun rule member => ?_
  obtain ⟨ready, isReady, rfl⟩ := List.mem_map.mp member
  exact (sound ready isReady).faultless

/-- The canonical text of a grammar is read as the grammar read again, if it is accepted at all. -/
theorem ofText_written_eq_ok_iff (other : Grammar) :
    ofText grammar.written = .ok other ↔
      other = grammar.reread ∧ ∀ ready ∈ grammar.ready, ready.reread.IsSound := by
  have isRules : ofText grammar.written = ofRules (grammar.rules.map Rule.reread) := by
    rw [ofText, allOfText_written areRead sound]
    rfl
  rw [isRules, ofRules_eq_ok_iff]
  constructor
  · rintro ⟨sameRules, othersSound⟩
    have sameReady : other.ready = grammar.ready.map ReadyRule.reread := by
      rw [ready_eq_map othersSound, sameRules, rules, List.map_map, List.map_map]
      rfl
    obtain ⟨ready⟩ := other
    obtain rfl : ready = grammar.ready.map ReadyRule.reread := sameReady
    exact ⟨rfl, List.forall_mem_map.mp othersSound⟩
  · rintro ⟨rfl, rereadSound⟩
    exact ⟨rules_reread grammar, List.forall_mem_map.mpr rereadSound⟩

/-- It is accepted if every pattern read again can be made ready. -/
theorem exists_ofText_written_iff :
    (∃ other, ofText grammar.written = .ok other) ↔
      ∀ rule ∈ grammar.rules, ∃ matcher, Matcher.ofPattern rule.pattern.reread = .ok matcher := by
  rw [rules, List.forall_mem_map]
  constructor
  · rintro ⟨other, isRead⟩ ready member
    have soundAgain := ((ofText_written_eq_ok_iff areRead sound other).mp isRead).2 ready member
    exact (sound ready member).reread_iff.mp soundAgain
  · intro areReady
    refine ⟨grammar.reread, (ofText_written_eq_ok_iff areRead sound _).mpr ⟨rfl, ?_⟩⟩
    exact fun ready member => (sound ready member).reread_iff.mpr (areReady ready member)

/-- If every pattern is sure to match alike, a sentence becomes the same. -/
theorem run_reread (soundAgain : ∀ ready ∈ grammar.ready, ready.reread.IsSound)
    (matchesAlike : ∀ rule ∈ grammar.rules, rule.pattern.MatchesAlike) (rootLabel : String)
    (tokens : List Token) :
    Chunker.run ⟨grammar.reread, rootLabel⟩ tokens = Chunker.run ⟨grammar, rootLabel⟩ tokens := by
  refine Chunker.run_alike ?_ rootLabel tokens
  rw [reread, List.forall₂_map_right_iff, List.forall₂_same]
  intro ready member
  have isRule : ready.rule ∈ grammar.rules := List.mem_map_of_mem member
  exact ReadyRule.alike_reread (areRead _ isRule) (sound ready member) (soundAgain ready member)
    (matchesAlike _ isRule)

end

/-- The canonical text of a grammar that was read from a text is read as the same rules with their
patterns read again. It is accepted just if these can be made ready, which they can if alternations
directly inside others keep their alternatives. A grammar read from it has as many rules, the same
labels and warnings and the same canonical text, and it makes the same of every sentence if every
pattern is sure to match alike. -/
theorem ofText_written_canonical {text : String} {grammar : Grammar}
    (accepted : ofText text = .ok grammar) :
    Rule.allOfText grammar.written = .ok (grammar.rules.map Rule.reread) ∧
      ((∃ other, ofText grammar.written = .ok other) ↔
        ∀ rule ∈ grammar.rules, ∃ matcher, Matcher.ofPattern rule.pattern.reread = .ok matcher) ∧
      ((∀ rule ∈ grammar.rules, rule.pattern.keepsNested = true) →
        ∃ other, ofText grammar.written = .ok other) ∧
      ∀ other, ofText grammar.written = .ok other →
        other.size = grammar.size ∧ other.rules.map Rule.label = grammar.rules.map Rule.label ∧
        other.labels = grammar.labels ∧ other.warnings = grammar.warnings ∧
        other.written = grammar.written ∧
        ((∀ rule ∈ grammar.rules, rule.pattern.MatchesAlike) → ∀ rootLabel tokens,
          Chunker.chunk ⟨other, rootLabel⟩ tokens = Chunker.chunk ⟨grammar, rootLabel⟩ tokens ∧
          Chunker.chunkTraced ⟨other, rootLabel⟩ tokens =
            Chunker.chunkTraced ⟨grammar, rootLabel⟩ tokens) := by
  obtain ⟨areRead, sound⟩ := isRead_of_ofText accepted
  have isAccepted := exists_ofText_written_iff areRead sound
  refine ⟨allOfText_written areRead sound, isAccepted, fun keeps => ?_, fun other isRead => ?_⟩
  · refine isAccepted.mpr (List.forall_mem_map.mpr fun ready member => ?_)
    have isRule : ready.rule ∈ grammar.rules := List.mem_map_of_mem member
    exact ⟨_, Pattern.ofPattern_reread (areRead _ isRule).pattern.writable (keeps _ isRule)
      (sound ready member).ready⟩
  · obtain ⟨rfl, soundAgain⟩ := (ofText_written_eq_ok_iff areRead sound other).mp isRead
    refine ⟨List.length_map _, labels_reread grammar, ?_, warnings_reread grammar,
      written_reread areRead, fun matchesAlike rootLabel tokens => ?_⟩
    · rw [labels, labels_reread, labels]
    · have sameRun := run_reread areRead sound soundAgain matchesAlike rootLabel tokens
      rw [Chunker.chunk, Chunker.chunk, Chunker.chunkTraced, Chunker.chunkTraced, sameRun]
      exact ⟨rfl, rfl⟩

/-- A text of rules that are sound when they are made ready. -/
theorem ofText_eq_ok {text : String} {rules : List Rule} (read : Rule.allOfText text = .ok rules)
    (sound : ∀ rule ∈ rules, rule.madeReady.IsSound) :
    ofText text = .ok ⟨rules.map Rule.madeReady⟩ := by
  rw [ofText, read]
  refine (ofRules_eq_ok_iff rules _).mpr ⟨?_, List.forall_mem_map.mpr sound⟩
  rw [Grammar.rules, List.map_map]
  exact List.map_id' rules

/-- Noun phrases by two rules, and verb phrases that may begin with a noun and what it belongs to. -/
def phrases : List Rule :=
  [⟨"NP", .sequence [.optional (.exactly "DT"), .zeroOrMore (.startingWith "JJ"),
      .oneOrMore (.startingWith "NN")]⟩,
    ⟨"NP", .exactly "PRP"⟩,
    ⟨"VP", .sequence [Pattern.verbOrBelonging,
      .zeroOrMore (.alternation [.exactly "NP", .exactly "PP"])]⟩]

/-- The same rules with a comment, a label for two patterns, a label on a line of its own, and more
parentheses than are needed. -/
def phrasesText : String :=
  "# Phrases\nNP: \x7b<DT>?<JJ.*>*<NN.*>+\x7d\n    \x7b(<PRP>)\x7d\nVP:\n" ++
    "\x7b((<NN.*><POS>|<NN.*><IN>)|<VB.*>)(<NP|PP>)*\x7d"

theorem ofText_written_canonical_phrases :
    ofText phrasesText = .ok ⟨phrases.map Rule.madeReady⟩ ∧
      ∃ other, ofText (written ⟨phrases.map Rule.madeReady⟩) = .ok other ∧
        other.written = "NP: \x7b<DT>?<JJ.*>*<NN.*>+\x7d\nNP: \x7b<PRP>\x7d\n" ++
          "VP: \x7b(<NN.*><POS>|<NN.*><IN>|<VB.*>)<NP|PP>*\x7d\n" ∧
        ∀ rootLabel tokens, Chunker.chunk ⟨other, rootLabel⟩ tokens =
          Chunker.chunk ⟨⟨phrases.map Rule.madeReady⟩, rootLabel⟩ tokens := by
  have sound : ∀ rule ∈ phrases, rule.madeReady.IsSound := by
    simp only [phrases, List.forall_mem_cons]
    exact ⟨⟨by decide, by decide, by decide, by rfl⟩, ⟨by decide, by decide, by decide, by rfl⟩,
      ⟨by decide, by decide, by decide, by rfl⟩, nofun⟩
  have areReady : ∀ rule ∈ phrases,
      ∃ matcher, Matcher.ofPattern rule.pattern.reread = .ok matcher := by
    simp only [phrases, List.forall_mem_cons]
    exact ⟨⟨_, by rfl⟩, ⟨_, by rfl⟩, ⟨_, by rfl⟩, nofun⟩
  have matchesAlike : ∀ rule ∈ phrases, rule.pattern.MatchesAlike := by
    simp only [phrases, List.forall_mem_cons]
    refine ⟨.inl (by decide +kernel), .inl (by decide +kernel), .inr ⟨⟨by decide +kernel, ?_⟩,
      by decide +kernel, ?_⟩, nofun⟩
    · exact Pattern.isSettled_of_factorsFixed _ (by decide) (by decide +kernel)
    · exact Pattern.isSettled_of_factorsFixed _ (by decide +kernel) (by decide +kernel)
  have accepted : ofText phrasesText = .ok ⟨phrases.map Rule.madeReady⟩ :=
    ofText_eq_ok (by decide +kernel) sound
  obtain ⟨_, isAccepted, _, same⟩ := ofText_written_canonical accepted
  obtain ⟨other, isRead⟩ := isAccepted.mpr areReady
  obtain ⟨_, _, _, _, sameText, sameTrees⟩ := same other isRead
  refine ⟨accepted, other, isRead, ?_, fun rootLabel tokens => (sameTrees matchesAlike _ _).1⟩
  rw [sameText]
  decide +kernel

/-- Alternatives that begin with the same loop, in parentheses and before another one. -/
def loops : List Rule :=
  [⟨"X", Pattern.loopOrOther⟩]

/-- Where alternatives are factored by themselves, the canonical text may make other phrases. -/
theorem chunk_written_ne :
    ofText "X: \x7b(<A>*<A>|<A>*<B>)|<C>\x7d" = .ok ⟨loops.map Rule.madeReady⟩ ∧
      written ⟨loops.map Rule.madeReady⟩ = "X: \x7b<A>*<A>|<A>*<B>|<C>\x7d\n" ∧
      ofText "X: \x7b<A>*<A>|<A>*<B>|<C>\x7d\n" =
        .ok ⟨(loops.map Rule.reread).map Rule.madeReady⟩ ∧
      (Chunker.chunk ⟨⟨loops.map Rule.madeReady⟩, "S"⟩
        [⟨"a", "A"⟩, ⟨"b", "A"⟩, ⟨"c", "B"⟩]).map Tree.written = .ok "(S (X a/A b/A c/B))" ∧
      (Chunker.chunk ⟨⟨(loops.map Rule.reread).map Rule.madeReady⟩, "S"⟩
        [⟨"a", "A"⟩, ⟨"b", "A"⟩, ⟨"c", "B"⟩]).map Tree.written =
          .ok "(S (X a/A b/A) (X c/B))" := by
  refine ⟨ofText_eq_ok (by decide +kernel) ?_, by decide +kernel,
    ofText_eq_ok (by decide +kernel) ?_, by decide +kernel, by decide +kernel⟩
  · exact List.forall_mem_singleton.mpr ⟨by decide, by decide, by decide, by rfl⟩
  · exact List.forall_mem_singleton.mpr
      ⟨by decide +kernel, by decide +kernel, by decide +kernel, by rfl⟩

end Grammar

end ShallowParse
