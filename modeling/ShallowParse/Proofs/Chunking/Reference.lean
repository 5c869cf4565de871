/-
This file proves that the reference grammar misses nothing and mislabels nothing. Each
phrase is made up as its label says, since its symbols are a run of the language of the
rule. Each rule leaves no place where it could build another phrase, and the rules after it
bring no nodes together that were apart. So nothing is left for it in the end, whatever tags
the words have, even if a tag is the label of a phrase.
-/

import ShallowParse.Proofs.Chunking.Completeness

namespace ShallowParse.Reference

open Segment ReadyRule

/-! ### Symbols -/

/-- Whether a symbol begins with a stem. -/
def Begins (stem symbol : String) : Prop :=
  stem.toList <+: symbol.toList

instance (stem symbol : String) : Decidable (Begins stem symbol) :=
  inferInstanceAs (Decidable (stem.toList <+: symbol.toList))

/-- No symbol begins with two stems, unless one of them begins with the other. -/
theorem Begins.not_begins {stem other symbol : String} (begins : Begins stem symbol)
    (apart : ¬Begins stem other ∧ ¬Begins other stem) : ¬Begins other symbol := fun beginsOther =>
  (List.prefix_or_prefix_of_prefix begins beginsOther).elim apart.1 apart.2

theorem Begins.ne {stem symbol other : String} (begins : Begins stem symbol)
    (notOther : ¬Begins stem other) : symbol ≠ other := by
  rintro rfl
  exact notOther begins

/-- What stands in a noun phrase begins nothing else. -/
theorem not_begins_of_nominal {symbol : String}
    (isNominal : symbol = "DT" ∨ Begins "JJ" symbol ∨ Begins "NN" symbol) :
    ¬Begins "VB" symbol ∧ symbol ≠ "IN" ∧ symbol ≠ "VP" := by
  rcases isNominal with rfl | begins | begins
  · decide
  · exact ⟨begins.not_begins (by decide), begins.ne (by decide), begins.ne (by decide)⟩
  · exact ⟨begins.not_begins (by decide), begins.ne (by decide), begins.ne (by decide)⟩

/-- The symbols of what comes after a verb begin nothing themselves. -/
theorem not_begins_of_object {symbol : String} (isObject : symbol = "NP" ∨ symbol = "PP") :
    ¬Begins "NN" symbol ∧ ¬Begins "VB" symbol ∧ symbol ≠ "IN" ∧ symbol ≠ "VP" := by
  rcases isObject with rfl | rfl <;> decide

/-! ### Phrases and rows -/

/-- What the phrases of the reference grammar are made up of. -/
inductive IsPhrase : String → List Node → Prop where
  /-- A determiner if there is one, any adjectives, and one noun at least. -/
  | noun (determiner adjectives nouns : List Token) (atMostOne : determiner.length ≤ 1)
      (isDeterminer : ∀ token ∈ determiner, token.tag = "DT")
      (areAdjectives : ∀ token ∈ adjectives, Begins "JJ" token.tag)
      (someNoun : nouns ≠ []) (areNouns : ∀ token ∈ nouns, Begins "NN" token.tag) :
      IsPhrase "NP" ((determiner ++ adjectives ++ nouns).map .leaf)
  /-- A preposition and a noun phrase, or what has its symbol. -/
  | prepositional (preposition : Token) (object : Node) (isPreposition : preposition.tag = "IN")
      (isObject : object.symbol = "NP") : IsPhrase "PP" [.leaf preposition, object]
  /-- A verb and any noun phrases and prepositional phrases, or what has their symbols. -/
  | verb (verb : Token) (objects : List Node) (isVerb : Begins "VB" verb.tag)
      (areObjects : ∀ object ∈ objects, object.symbol = "NP" ∨ object.symbol = "PP") :
      IsPhrase "VP" (.leaf verb :: objects)

/-- Whether nothing is left for the reference grammar in a row of nodes, which are the children of
a phrase with a label or of the root. -/
structure IsExhausted (label : Option String) (row : List Node) : Prop where
  /-- Nouns stand in noun phrases. -/
  nouns : ∀ token, .leaf token ∈ row → Begins "NN" token.tag → label = some "NP"
  /-- Verbs come first in verb phrases. -/
  verbs : ∀ before token after, row = before ++ .leaf token :: after → Begins "VB" token.tag →
    label = some "VP" ∧ before = []
  /-- A preposition before a noun phrase makes up a prepositional phrase with it. -/
  prepositions : ∀ before token next after, row = before ++ .leaf token :: next :: after →
    token.tag = "IN" → next.symbol = "NP" → label = some "PP" ∧ before = [] ∧ after = []
  /-- Verb phrases have all the phrases that come after the verb. -/
  objects : ∀ before children next after,
    row = before ++ .phrase "VP" children :: next :: after →
    next.symbol ≠ "NP" ∧ next.symbol ≠ "PP"

/-- Whether a tree is one that the reference grammar leaves nothing to do in. -/
structure IsFinished (tree : Tree) : Prop where
  phrases : ∀ label children, .phrase label children ∈ tree.nodes → IsPhrase label children
  top : IsExhausted none tree.children
  below : ∀ label children, .phrase label children ∈ tree.nodes → IsExhausted (some label) children

/-! ### Exhausted rows -/

theorem mem_of_row {row before after : List Node} {node : Node}
    (isRow : row = before ++ node :: after) : node ∈ row :=
  isRow ▸ List.mem_append_cons_self

theorem isExhausted_nouns {tokens : List Token}
    (areNominal : ∀ token ∈ tokens,
      token.tag = "DT" ∨ Begins "JJ" token.tag ∨ Begins "NN" token.tag) :
    IsExhausted (some "NP") (tokens.map .leaf) := by
  have ofNode : ∀ node ∈ tokens.map Node.leaf,
      ¬Begins "VB" node.symbol ∧ node.symbol ≠ "IN" ∧ node.symbol ≠ "VP" := by
    intro node member
    obtain ⟨token, isToken, rfl⟩ := List.mem_map.mp member
    exact not_begins_of_nominal (areNominal token isToken)
  refine ⟨fun _ _ _ => rfl, ?_, ?_, ?_⟩
  · intro before token after isRow isVerb
    exact absurd isVerb (ofNode (.leaf token) (mem_of_row isRow)).1
  · intro before token next after isRow isPreposition
    exact absurd isPreposition (ofNode (.leaf token) (mem_of_row isRow)).2.1
  · intro before children next after isRow
    exact absurd rfl (ofNode (.phrase _ children) (mem_of_row isRow)).2.2

theorem isExhausted_preposition {preposition : Token} {object : Node}
    (isPreposition : preposition.tag = "IN") (isObject : object.symbol = "NP") :
    IsExhausted (some "PP") [.leaf preposition, object] := by
  have ofPreposition : ¬Begins "NN" preposition.tag ∧ ¬Begins "VB" preposition.tag ∧
      preposition.tag ≠ "VP" := by
    rw [isPreposition]
    decide
  have ofObject : ¬Begins "NN" object.symbol ∧ ¬Begins "VB" object.symbol ∧
      object.symbol ≠ "VP" := by
    rw [isObject]
    decide
  have ofNode : ∀ node ∈ [.leaf preposition, object], ¬Begins "NN" node.symbol ∧
      ¬Begins "VB" node.symbol ∧ node.symbol ≠ "VP" :=
    List.forall_mem_cons.mpr ⟨ofPreposition, List.forall_mem_singleton.mpr ofObject⟩
  refine ⟨fun token member isNoun => absurd isNoun (ofNode _ member).1, ?_, ?_, ?_⟩
  · intro before token after isRow isVerb
    exact absurd isVerb (ofNode (.leaf token) (mem_of_row isRow)).2.1
  -- Two nodes side by side are the whole row.
  · intro before token next after isRow _ _
    have sameLength := congrArg List.length isRow
    simp only [List.length_append, List.length_cons, List.length_nil] at sameLength
    exact ⟨rfl, List.eq_nil_of_length_eq_zero (by omega),
      List.eq_nil_of_length_eq_zero (by omega)⟩
  · intro before children next after isRow
    exact absurd rfl (ofNode (.phrase _ children) (mem_of_row isRow)).2.2

theorem isExhausted_verb {verb : Token} {objects : List Node} (isVerb : Begins "VB" verb.tag)
    (areObjects : ∀ object ∈ objects, object.symbol = "NP" ∨ object.symbol = "PP") :
    IsExhausted (some "VP") (.leaf verb :: objects) := by
  have ofVerb : ¬Begins "NN" verb.tag ∧ verb.tag ≠ "IN" ∧ verb.tag ≠ "VP" :=
    ⟨isVerb.not_begins (by decide), isVerb.ne (by decide), isVerb.ne (by decide)⟩
  have ofObject : ∀ object ∈ objects, _ := fun object member =>
    not_begins_of_object (areObjects object member)
  have ofNode : ∀ node ∈ .leaf verb :: objects, ¬Begins "NN" node.symbol ∧
      node.symbol ≠ "IN" ∧ node.symbol ≠ "VP" :=
    List.forall_mem_cons.mpr ⟨ofVerb, fun object member =>
      ⟨(ofObject object member).1, (ofObject object member).2.2⟩⟩
  refine ⟨fun token member isNoun => absurd isNoun (ofNode _ member).1, ?_, ?_, ?_⟩
  · intro before token after isRow isOther
    cases before with
    | nil => exact ⟨rfl, rfl⟩
    | cons first others =>
      have member := mem_of_row (List.cons.inj isRow).2
      exact absurd isOther (ofObject (.leaf token) member).2.1
  · intro before token next after isRow isPreposition
    exact absurd isPreposition (ofNode (.leaf token) (mem_of_row isRow)).2.1
  · intro before children next after isRow
    exact absurd rfl (ofNode (.phrase _ children) (mem_of_row isRow)).2.2

/-- Nothing is left to do among the children of a phrase. -/
theorem IsPhrase.isExhausted {label : String} {children : List Node}
    (isPhrase : IsPhrase label children) : IsExhausted (some label) children := by
  cases isPhrase with
  | noun determiner adjectives nouns _ isDeterminer areAdjectives _ areNouns =>
    refine isExhausted_nouns fun token member => ?_
    rw [List.mem_append, List.mem_append, or_assoc] at member
    exact member.imp (isDeterminer token) (Or.imp (areAdjectives token) (areNouns token))
  | prepositional preposition object isPreposition isObject =>
    exact isExhausted_preposition isPreposition isObject
  | verb verb objects isVerb areObjects => exact isExhausted_verb isVerb areObjects

/-! ### Languages -/

/-- What comes after a verb in a verb phrase. -/
def object : Pattern :=
  .anyOf [.exactly "NP", .exactly "PP"]

theorem singles_exactly (tag : String) :
    ∀ run ∈ (Pattern.exactly tag).language, ∃ symbol, symbol = tag ∧ run = [symbol] :=
  fun _ isRun => ⟨tag, rfl, isRun⟩

theorem singles_startingWith (stem : String) :
    ∀ run ∈ (Pattern.startingWith stem).language, ∃ symbol, Begins stem symbol ∧ run = [symbol] :=
  fun _ isRun => isRun

theorem language_nounPhrase {run : List String} (inLanguage : run ∈ nounPhrase.pattern.language) :
    ∃ determiner adjectives nouns, run = determiner ++ adjectives ++ nouns ∧
      determiner.length ≤ 1 ∧ (∀ symbol ∈ determiner, symbol = "DT") ∧
      (∀ symbol ∈ adjectives, Begins "JJ" symbol) ∧
      nouns ≠ [] ∧ ∀ symbol ∈ nouns, Begins "NN" symbol := by
  obtain ⟨determiner, isDeterminer, _, isRest, rfl⟩ := Language.mem_mul.mp inLanguage
  obtain ⟨adjectives, areAdjectives, _, areLast, rfl⟩ := Language.mem_mul.mp isRest
  obtain ⟨nouns, areNouns, _, isNil, rfl⟩ := Language.mem_mul.mp areLast
  obtain ⟨_, atMostOne, isDeterminer⟩ :=
    Ways.length_of_mem_languageBetween (singles_exactly "DT") isDeterminer
  obtain ⟨_, _, areAdjectives⟩ :=
    Ways.length_of_mem_languageBetween (singles_startingWith "JJ") areAdjectives
  obtain ⟨someNoun, _, areNouns⟩ :=
    Ways.length_of_mem_languageBetween (singles_startingWith "NN") areNouns
  refine ⟨determiner, adjectives, nouns, ?_, atMostOne 1 rfl, isDeterminer, areAdjectives,
    List.ne_nil_of_length_pos someNoun, areNouns⟩
  rw [(Language.mem_one _).mp isNil, List.append_nil, List.append_assoc]

theorem noun_mem_language {symbol : String} (isNoun : Begins "NN" symbol) :
    [symbol] ∈ nounPhrase.pattern.language := by
  have isCopy : [symbol] ∈ (Pattern.startingWith "NN").language := ⟨symbol, isNoun, rfl⟩
  have oneCopy : [symbol] ∈ (Pattern.oneOrMore (.startingWith "NN")).language :=
    ⟨1, Nat.le_refl 1, nofun, (pow_one (Pattern.startingWith "NN").language).symm ▸ isCopy⟩
  refine Language.mem_mul.mpr ⟨[], Ways.nil_mem_languageBetween _ _, [symbol], ?_, rfl⟩
  refine Language.mem_mul.mpr ⟨[], Ways.nil_mem_languageBetween _ _, [symbol], ?_, rfl⟩
  exact Language.mem_mul.mpr ⟨[symbol], oneCopy, [], Language.nil_mem_one, rfl⟩

theorem language_prepositionalPhrase {run : List String} :
    run ∈ prepositionalPhrase.pattern.language ↔ run = ["IN", "NP"] := by
  constructor
  · intro inLanguage
    obtain ⟨_, rfl, _, isRest, rfl⟩ := Language.mem_mul.mp inLanguage
    obtain ⟨_, rfl, _, isNil, rfl⟩ := Language.mem_mul.mp isRest
    rw [(Language.mem_one _).mp isNil]
    rfl
  · rintro rfl
    refine Language.mem_mul.mpr ⟨["IN"], rfl, ["NP"], ?_, rfl⟩
    exact Language.mem_mul.mpr ⟨["NP"], rfl, [], Language.nil_mem_one, rfl⟩

theorem language_verbPhrase {run : List String} (inLanguage : run ∈ verbPhrase.pattern.language) :
    ∃ verb objects, run = verb :: objects ∧ Begins "VB" verb ∧
      ∀ symbol ∈ objects, symbol = "NP" ∨ symbol = "PP" := by
  obtain ⟨first, isFirst, _, others, rfl⟩ := Language.mem_mul.mp inLanguage
  obtain ⟨objects, areObjects, _, isNil, rfl⟩ := Language.mem_mul.mp others
  obtain ⟨verb, isVerb, rfl⟩ := singles_startingWith "VB" first isFirst
  have singles : ∀ run ∈ object.language,
      ∃ symbol, (symbol = "NP" ∨ symbol = "PP") ∧ run = [symbol] := by
    rintro run (isRun | isRun | isRun)
    · exact ⟨"NP", Or.inl rfl, isRun⟩
    · exact ⟨"PP", Or.inr rfl, isRun⟩
    · cases isRun
  obtain ⟨_, _, areObjects⟩ := Ways.length_of_mem_languageBetween singles areObjects
  refine ⟨verb, objects, ?_, isVerb, areObjects⟩
  rw [(Language.mem_one _).mp isNil, List.append_nil]
  rfl

theorem verb_mem_language {symbol : String} (isVerb : Begins "VB" symbol) :
    [symbol] ∈ verbPhrase.pattern.language := by
  refine Language.mem_mul.mpr ⟨[symbol], ⟨symbol, isVerb, rfl⟩, [], ?_, rfl⟩
  exact Language.mem_mul.mpr ⟨[], Ways.nil_mem_languageBetween _ _, [], Language.nil_mem_one, rfl⟩

theorem ways_object_shorter (symbols : List String) :
    ∀ rest ∈ object.ways symbols, rest.length < symbols.length := by
  intro rest isWay
  rcases List.mem_append.mp isWay with isNoun | isWay
  · exact Ways.shorter_of_mem_single _ symbols rest isNoun
  · rcases List.mem_append.mp isWay with isPreposition | isNone
    · exact Ways.shorter_of_mem_single _ symbols rest isPreposition
    · cases isNone

/-- The preferred match of the verb phrase ends before a symbol that is no object. -/
theorem not_object_of_taken {run rest : List String} {next : String}
    (taken : verbPhrase.pattern.taken (run ++ next :: rest) = some run.length) :
    next ≠ "NP" ∧ next ≠ "PP" := by
  have isFirst := Pattern.head?_of_taken taken
  change List.head? (List.flatMap _ _) = _ at isFirst
  rw [List.head?_flatMap] at isFirst
  obtain ⟨middle, _, isEnd⟩ := List.exists_of_findSome?_eq_some isFirst
  change List.head? (List.flatMap (fun left => [left])
    (Ways.repeated object.ways 0 none middle)) = _ at isEnd
  rw [List.flatMap_singleton', Ways.repeated_zero] at isEnd
  have stuck := Ways.ways_eq_nil_of_head?_endless ways_object_shorter isEnd
  constructor
  · rintro rfl
    cases stuck
  · rintro rfl
    cases stuck

/-! ### Passes -/

theorem isExact : ∀ rule ∈ rules, rule.madeReady.IsExact := by
  have sound : ∀ rule ∈ rules, rule.madeReady.IsSound :=
    List.forall_mem_map.mp ((Grammar.ofRules_eq_ok_iff rules ready).mp grammar_eq).2
  have steady : ∀ rule ∈ rules, rule.pattern.regex.isSteady = true := by decide +kernel
  have fixed : ∀ rule ∈ rules, rule.pattern.factorsFixed = true := by decide +kernel
  intro rule member
  have isSound := sound rule member
  exact ⟨isSound, steady rule member,
    Pattern.isSettled_of_factorsFixed _ isSound.faultless (fixed rule member)⟩

theorem isExact_nounPhrase : nounPhrase.madeReady.IsExact :=
  isExact nounPhrase (by simp [rules])

theorem isExact_prepositionalPhrase : prepositionalPhrase.madeReady.IsExact :=
  isExact prepositionalPhrase (by simp [rules])

theorem isExact_verbPhrase : verbPhrase.madeReady.IsExact :=
  isExact verbPhrase (by simp [rules])

/-- Whether the three passes over a sentence part the nodes into segments, each pass those that the
one before it leaves. -/
structure IsParted (tokens : List Token) (nouns prepositions verbs : List Segment) : Prop where
  ofNouns : nounPhrase.madeReady.Parts (tokens.map .leaf) nouns
  ofPrepositions : prepositionalPhrase.madeReady.Parts (nouns.map (result "NP")) prepositions
  ofVerbs : verbPhrase.madeReady.Parts (prepositions.map (result "PP")) verbs

theorem exists_isParted (tokens : List Token) :
    ∃ nouns prepositions verbs, IsParted tokens nouns prepositions verbs ∧
      rewriteAll ready.ready (tokens.map .leaf) = verbs.map (result "VP") := by
  obtain ⟨nouns, areNouns, isFirst⟩ := nounPhrase.madeReady.exists_parts (tokens.map .leaf)
  obtain ⟨prepositions, arePrepositions, isSecond⟩ :=
    prepositionalPhrase.madeReady.exists_parts (nouns.map (result "NP"))
  obtain ⟨verbs, areVerbs, isThird⟩ :=
    verbPhrase.madeReady.exists_parts (prepositions.map (result "PP"))
  refine ⟨nouns, prepositions, verbs, ⟨areNouns, arePrepositions, areVerbs⟩, ?_⟩
  calc
    _ = verbPhrase.madeReady.rewrite
        (prepositionalPhrase.madeReady.rewrite (nounPhrase.madeReady.rewrite _)) := rfl
    _ = verbPhrase.madeReady.rewrite (prepositionalPhrase.madeReady.rewrite _) :=
      congrArg (fun row => verbPhrase.madeReady.rewrite
        (prepositionalPhrase.madeReady.rewrite row)) isFirst
    _ = verbPhrase.madeReady.rewrite _ := congrArg _ isSecond
    _ = _ := isThird

namespace IsParted

variable {tokens : List Token} {nouns prepositions verbs : List Segment}
  (parted : IsParted tokens nouns prepositions verbs)

include parted

theorem hasLabels_nouns : HasLabels ["NP"] (nouns.map (result "NP")) := by
  refine hasLabels_result fun label children member => ?_
  rw [parted.ofNouns.areNodes] at member
  obtain ⟨token, _, isLeaf⟩ := List.mem_map.mp member
  cases isLeaf

theorem hasLabels_prepositions : HasLabels ["PP", "NP"] (prepositions.map (result "PP")) := by
  refine hasLabels_result ?_
  rw [parted.ofPrepositions.areNodes]
  exact parted.hasLabels_nouns

/-! ### New phrases -/

theorem isPhrase_noun {before after : List Segment} {first : Node} {others : List Node}
    (isSegment : nouns = before ++ built first others :: after) :
    IsPhrase "NP" (first :: others) := by
  subst isSegment
  obtain ⟨determiner, adjectives, nouns, isRun, atMostOne, isDeterminer, areAdjectives, someNoun,
    areNouns⟩ := language_nounPhrase (parted.ofNouns.mem_language isExact_nounPhrase)
  obtain ⟨_, _, _, _, isRest⟩ := List.map_eq_append_iff.mp parted.ofNouns.nodes_eq
  obtain ⟨words, _, _, areWords, _⟩ := List.map_eq_append_iff.mp isRest
  change words.map Node.leaf = first :: others at areWords
  rw [← areWords, List.map_map] at isRun
  -- The words are parted as their tags are.
  obtain ⟨_, nounWords, rfl, isFront, rfl⟩ := List.map_eq_append_iff.mp isRun
  obtain ⟨determinerWords, adjectiveWords, rfl, rfl, rfl⟩ := List.map_eq_append_iff.mp isFront
  rw [← areWords]
  rw [List.length_map] at atMostOne
  exact IsPhrase.noun determinerWords adjectiveWords nounWords atMostOne
    (List.forall_mem_map.mp isDeterminer) (List.forall_mem_map.mp areAdjectives)
    (fun isNil => someNoun (isNil ▸ rfl)) (List.forall_mem_map.mp areNouns)

theorem isPhrase_preposition {before after : List Segment} {first : Node} {others : List Node}
    (isSegment : prepositions = before ++ built first others :: after) :
    IsPhrase "PP" (first :: others) := by
  subst isSegment
  have inLanguage := parted.ofPrepositions.mem_language isExact_prepositionalPhrase
  have areSymbols := language_prepositionalPhrase.mp inLanguage
  obtain ⟨isPreposition, isRest⟩ := List.cons.inj areSymbols
  obtain ⟨object, _, rfl, isObject, isNil⟩ := List.map_eq_cons_iff.mp isRest
  obtain rfl := List.map_eq_nil_iff.mp isNil
  have isNode : first ∈ _ := mem_of_row parted.ofPrepositions.nodes_eq
  obtain ⟨token, rfl⟩ := parted.hasLabels_nouns.exists_leaf isNode (isPreposition ▸ by decide)
  exact IsPhrase.prepositional token object isPreposition isObject

theorem isPhrase_verb {before after : List Segment} {first : Node} {others : List Node}
    (isSegment : verbs = before ++ built first others :: after) :
    IsPhrase "VP" (first :: others) := by
  subst isSegment
  obtain ⟨verb, objects, areSymbols, isVerb, areObjects⟩ :=
    language_verbPhrase (parted.ofVerbs.mem_language isExact_verbPhrase)
  obtain ⟨rfl, rfl⟩ := List.cons.inj areSymbols
  have isNode : first ∈ _ := mem_of_row parted.ofVerbs.nodes_eq
  have notLabel : first.symbol ∉ ["PP", "NP"] := by
    simp only [List.mem_cons, List.not_mem_nil, or_false, not_or]
    exact ⟨isVerb.ne (by decide), isVerb.ne (by decide)⟩
  obtain ⟨token, rfl⟩ := parted.hasLabels_prepositions.exists_leaf isNode notLabel
  exact IsPhrase.verb token others isVerb (List.forall_mem_map.mp areObjects)

/-- Every phrase below what the last pass leaves was built by one of the passes. -/
theorem isPhrase {label : String} {children : List Node}
    (member : .phrase label children ∈ Node.descendantsOfAll (verbs.map (result "VP"))) :
    IsPhrase label children := by
  rcases descendants_result member with member | ⟨_, _, _, _, isSegment, isNew⟩
  · rw [parted.ofVerbs.areNodes] at member
    rcases descendants_result member with member | ⟨_, _, _, _, isSegment, isNew⟩
    · rw [parted.ofPrepositions.areNodes] at member
      rcases descendants_result member with member | ⟨_, _, _, _, isSegment, isNew⟩
      · rw [parted.ofNouns.areNodes, Node.descendantsOfAll_map_leaf] at member
        obtain ⟨token, _, isLeaf⟩ := List.mem_map.mp member
        cases isLeaf
      · cases isNew
        exact parted.isPhrase_noun isSegment
    · cases isNew
      exact parted.isPhrase_preposition isSegment
  · cases isNew
    exact parted.isPhrase_verb isSegment

/-! ### What is left -/

/-- No noun is left outside a noun phrase. -/
theorem not_noun {token : Token} (member : .leaf token ∈ nouns.map (result "NP")) :
    ¬Begins "NN" token.tag := fun isNoun =>
  parted.ofNouns.not_mem_language_of_leaf isExact_nounPhrase member (noun_mem_language isNoun)

/-- No verb is left outside a verb phrase. -/
theorem not_verb {token : Token} (member : .leaf token ∈ verbs.map (result "VP")) :
    ¬Begins "VB" token.tag := fun isVerb =>
  parted.ofVerbs.not_mem_language_of_leaf isExact_verbPhrase member (verb_mem_language isVerb)

/-- A word that is left was left by each pass. -/
theorem leaf_mem_nouns {token : Token} (member : .leaf token ∈ verbs.map (result "VP")) :
    .leaf token ∈ nouns.map (result "NP") := by
  obtain ⟨_, _, rfl⟩ := exists_kept_of_leaf member
  have member := mem_of_row parted.ofVerbs.nodes_eq
  obtain ⟨_, _, rfl⟩ := exists_kept_of_leaf member
  exact mem_of_row parted.ofPrepositions.nodes_eq

/-- No preposition is left before a noun phrase. -/
theorem not_object_of_preposition {before after : List Node} {token : Token} {next : Node}
    (isRow : prepositions.map (result "PP") = before ++ .leaf token :: next :: after)
    (isPreposition : token.tag = "IN") : next.symbol ≠ "NP" := by
  intro isObject
  obtain ⟨earlier, segment, following, later, rfl, isFirst, isNext⟩ := exists_adjacent isRow
  obtain rfl := eq_kept_of_result_leaf isFirst
  obtain rfl := eq_kept_of_result isNext (by rw [isObject]; decide)
  refine parted.ofPrepositions.not_isPrefix isExact_prepositionalPhrase ["IN", "NP"]
    (language_prepositionalPhrase.mpr rfl) ?_
  exact List.cons_prefix_cons.mpr
    ⟨isPreposition.symm, List.cons_prefix_cons.mpr ⟨isObject.symm, List.nil_prefix⟩⟩

/-- No object is left after a verb phrase. -/
theorem not_object_of_verb {before after : List Node} {children : List Node} {next : Node}
    (isRow : verbs.map (result "VP") = before ++ .phrase "VP" children :: next :: after) :
    next.symbol ≠ "NP" ∧ next.symbol ≠ "PP" := by
  obtain ⟨earlier, segment, following, later, rfl, isFirst, isNext⟩ := exists_adjacent isRow
  cases segment with
  | kept node =>
    obtain rfl : node = .phrase "VP" children := isFirst
    have isLabel := parted.hasLabels_prepositions "VP" children
      (mem_of_row parted.ofVerbs.nodes_eq)
    exact absurd isLabel (by decide)
  | built first others =>
    cases following with
    | built =>
      subst isNext
      show "VP" ≠ "NP" ∧ "VP" ≠ "PP"
      decide
    | kept node =>
      obtain rfl : node = next := isNext
      have taken := parted.ofVerbs.taken_eq isExact_verbPhrase
      rw [List.map_append] at taken
      refine not_object_of_taken (taken.trans ?_)
      rw [List.length_map]
      rfl

theorem isExhausted : IsExhausted none (verbs.map (result "VP")) := by
  refine ⟨fun token member isNoun => ?_, fun before token after isRow isVerb => ?_,
    fun before token next after isRow isPreposition isObject => ?_,
    fun _ _ _ _ isRow => parted.not_object_of_verb isRow⟩
  · exact absurd isNoun (parted.not_noun (parted.leaf_mem_nouns member))
  · exact absurd isVerb (parted.not_verb (mem_of_row isRow))
  · obtain ⟨earlier, segment, following, later, rfl, isFirst, isNext⟩ := exists_adjacent isRow
    obtain rfl := eq_kept_of_result_leaf isFirst
    obtain rfl := eq_kept_of_result isNext (by rw [isObject]; decide)
    exact absurd isObject
      (parted.not_object_of_preposition parted.ofVerbs.nodes_eq isPreposition)

end IsParted

/-! ### Sentences -/

/-- The reference grammar misses nothing and mislabels nothing. Every phrase of a tree is made up
as its label says. Nouns stand nowhere but in noun phrases, and verbs nowhere but first in verb
phrases. A preposition comes before a noun phrase, or what has its symbol, only in a prepositional
phrase of these two, and no noun phrase or prepositional phrase comes right after a verb phrase. -/
theorem chunk_misses_nothing {grammar : Grammar} (isReference : Reference.grammar = .ok grammar)
    (rootLabel : String) {tokens : List Token} (complete : ∀ token ∈ tokens, token.IsComplete) :
    ∃ tree, Chunker.chunk ⟨grammar, rootLabel⟩ tokens = .ok tree ∧ IsFinished tree := by
  obtain rfl : ready = grammar := Except.ok.inj (grammar_eq.symm.trans isReference)
  obtain ⟨nouns, prepositions, verbs, parted, isTop⟩ := exists_isParted tokens
  refine ⟨⟨rootLabel, verbs.map (result "VP")⟩, ?_, ?_⟩
  · rw [Chunker.chunk_eq, (Chunker.malformed?_eq_none_iff tokens 0).mpr complete]
    simp only [Run.nodes_ofRules, isTop]
  · exact ⟨fun _ _ member => parted.isPhrase member, parted.isExhausted,
      fun _ _ member => (parted.isPhrase member).isExhausted⟩

/-- A sentence in which some words have the labels of phrases for tags. -/
def labelled : List Token :=
  [⟨"on", "IN"⟩, ⟨"it", "NP"⟩, ⟨"gave", "VBD"⟩, ⟨"her", "NP"⟩, ⟨"the", "DT"⟩, ⟨"red", "JJ"⟩,
    ⟨"rose", "NN"⟩, ⟨"go", "VP"⟩, ⟨"up", "PP"⟩]

theorem chunk_misses_nothing_labelled :
    (∀ token ∈ labelled, token.IsComplete) ∧ Reference.grammar = .ok ready ∧
      ∃ tree, Chunker.chunk ⟨ready, "S"⟩ labelled = .ok tree ∧ IsFinished tree ∧
        tree.shape = "S[PP[IN NP] VP[VBD NP NP[DT JJ NN]] VP PP]" := by
  have complete : ∀ token ∈ labelled, token.IsComplete := by
    simp [labelled, Token.IsComplete]
  obtain ⟨tree, isTree, finished⟩ := chunk_misses_nothing grammar_eq "S" complete
  have isShape : (Chunker.chunk ⟨ready, "S"⟩ labelled).map Tree.shape =
      .ok "S[PP[IN NP] VP[VBD NP NP[DT JJ NN]] VP PP]" := by decide +kernel
  rw [isTree] at isShape
  exact ⟨complete, grammar_eq, tree, isTree, finished, Except.ok.inj isShape⟩

end ShallowParse.Reference
