/-
This file proves that reading a line of words such as `rose/NN` and writing words in this
way are inverse to each other. The last slash of a run parts the text from the tag, so a run
shows at most one word, and it shows one if there is something on either side of that slash.
Words are written as runs again unless blanks or, in a tag, slashes stand in them.
-/

import ShallowParse.Proofs.Chunking.Regrouping
import ShallowParse.Proofs.Tagged.Items
import ShallowParse.Proofs.Text.Words
import ShallowParse.Tagged.Slashed

namespace ShallowParse

/-! ### The last slash -/

theorem splitAtLastSlash?_eq_none_iff {chars : List Char} :
    splitAtLastSlash? chars = none ↔ '/' ∉ chars := by
  induction chars with
  | nil => exact ⟨fun _ => List.not_mem_nil, fun _ => rfl⟩
  | cons char rest inductionHypothesis =>
    rw [splitAtLastSlash?, List.mem_cons, not_or, ← inductionHypothesis]
    cases splitAtLastSlash? rest with
    | some parts => exact ⟨nofun, fun noSlash => nomatch noSlash.2⟩
    | none =>
      by_cases isSlash : char = '/'
      · simp [isSlash]
      · simp [isSlash, Ne.symm isSlash]

/-- A text is parted at a slash after which there is none. -/
theorem splitAtLastSlash?_eq_some_iff {chars before after : List Char} :
    splitAtLastSlash? chars = some (before, after) ↔
      chars = before ++ '/' :: after ∧ '/' ∉ after := by
  constructor
  · intro parted
    induction chars generalizing before with
    | nil => cases parted
    | cons char rest inductionHypothesis =>
      rw [splitAtLastSlash?] at parted
      cases ofRest : splitAtLastSlash? rest with
      | some parts =>
        rw [ofRest] at parted
        cases parted
        obtain ⟨rfl, isLast⟩ := inductionHypothesis ofRest
        exact ⟨rfl, isLast⟩
      | none =>
        rw [ofRest] at parted
        dsimp only at parted
        split at parted
        · rename_i isSlash
          cases parted
          exact ⟨congrArg (· :: after) isSlash, splitAtLastSlash?_eq_none_iff.mp ofRest⟩
        · cases parted
  · rintro ⟨rfl, isLast⟩
    induction before with
    | nil =>
      rw [List.nil_append, splitAtLastSlash?, splitAtLastSlash?_eq_none_iff.mpr isLast]
      rfl
    | cons char before inductionHypothesis =>
      rw [List.cons_append, splitAtLastSlash?, inductionHypothesis]

namespace Token

/-! ### Single words -/

/-- Whether a run shows a word: it has the text before its last slash and the tag after it, and
neither is empty. -/
structure FromSlashed (run : String) (token : Token) : Prop where
  written : run = token.written
  isLast : '/' ∉ token.tag.toList
  complete : token.IsComplete

theorem toList_written (token : Token) :
    token.written.toList = token.text.toList ++ '/' :: token.tag.toList := by
  rw [Token.written, String.toList_append, String.toList_append, List.append_assoc]
  rfl

theorem splitAtLastSlash?_written {token : Token} (isLast : '/' ∉ token.tag.toList) :
    splitAtLastSlash? token.written.toList = some (token.text.toList, token.tag.toList) :=
  splitAtLastSlash?_eq_some_iff.mpr ⟨toList_written token, isLast⟩

/-- A run is read as the word that it shows. -/
theorem ofSlashed_eq_ok_iff {run : String} {token : Token} :
    ofSlashed run = .ok token ↔ FromSlashed run token := by
  constructor
  · intro isRead
    rw [ofSlashed] at isRead
    split at isRead
    · cases isRead
    · rename_i text tag parted
      obtain ⟨isRun, isLast⟩ := splitAtLastSlash?_eq_some_iff.mp parted
      split at isRead
      · cases isRead
      · rename_i someText
        split at isRead
        · cases isRead
        · rename_i someTag
          cases isRead
          refine ⟨?_, ?_, ?_, ?_⟩
          · rw [← String.toList_inj, toList_written, String.toList_ofList, String.toList_ofList,
              isRun]
          · rwa [String.toList_ofList]
          · simpa using someText
          · simpa using someTag
  · rintro ⟨rfl, isLast, someText, someTag⟩
    rw [ofSlashed, splitAtLastSlash?_written isLast]
    simp [someText, someTag]

/-! ### Lines -/

/-- A word that is written without a blank and with no slash after the one before its tag. -/
structure IsPlain (token : Token) : Prop where
  complete : token.IsComplete
  ofText : ∀ char ∈ token.text.toList, Text.isBlank char = false
  ofTag : ∀ char ∈ token.tag.toList, Text.isBlank char = false
  isLast : '/' ∉ token.tag.toList

/-- A plain word is written as a run. -/
theorem IsPlain.isRun {token : Token} (isPlain : token.IsPlain) :
    token.written.toList ≠ [] ∧ ∀ char ∈ token.written.toList, Text.isBlank char = false := by
  have ofSlash : Text.isBlank '/' = false := by decide
  rw [toList_written]
  refine ⟨List.append_ne_nil_of_right_ne_nil _ (List.cons_ne_nil _ _), ?_⟩
  rw [List.forall_mem_append, List.forall_mem_cons]
  exact ⟨isPlain.ofText, ofSlash, isPlain.ofTag⟩

theorem areRead_ofLine (line : String) :
    AreRead FromSlashed (Text.words line) (ofLine line) := by
  rw [ofLine]
  exact areRead_allOf (fun _ _ => ofSlashed_eq_ok_iff) (Text.words line)

/-- Plain words are read back from a line that has the runs they are written as. -/
theorem ofLine_of_words {line : String} {tokens : List Token}
    (arePlain : ∀ token ∈ tokens, token.IsPlain)
    (areWords : Text.words line = tokens.map Token.written) : ofLine line = .ok tokens := by
  rw [(areRead_ofLine line).shown, areWords, List.forall₂_map_left_iff, List.forall₂_same]
  exact fun token member => ⟨rfl, (arePlain token member).isLast, (arePlain token member).complete⟩

theorem words_intercalate {gap : String} (someBlank : gap ≠ "")
    (isBlank : Text.isBlankText gap = true) {tokens : List Token}
    (arePlain : ∀ token ∈ tokens, token.IsPlain) :
    Text.words (gap.intercalate (tokens.map Token.written)) = tokens.map Token.written := by
  have areRuns : ∀ run ∈ (tokens.map Token.written).map String.toList,
      run ≠ [] ∧ ∀ char ∈ run, Text.isBlank char = false := by
    rw [List.map_map, List.forall_mem_map]
    exact fun token member => (arePlain token member).isRun
  rw [← Text.hasRuns_iff, String.toList_intercalate]
  exact Text.HasRuns.intercalate (by simpa using someBlank) (List.all_eq_true.mp isBlank) areRuns

/-- A line is read just if each of its runs has a text before its last slash and a tag after it.
Then it is read as these words, and otherwise the first other run is reported. Words without blanks
and with no slash in their tags are read back from any line with the runs that they are written as,
in particular from one with the same blanks between any two of them. -/
theorem ofLine_inverts_written (line : String) (tokens : List Token) :
    (∃ runs : List String,
      (∀ others : List String,
        Text.HasRuns line.toList (others.map String.toList) ↔ runs = others) ∧
      AreRead FromSlashed runs (ofLine line)) ∧
    ((∀ token ∈ tokens, token.IsPlain) →
      (Text.HasRuns line.toList ((tokens.map Token.written).map String.toList) →
        ofLine line = .ok tokens) ∧
      ∀ gap, gap ≠ "" → Text.isBlankText gap = true →
        ofLine (gap.intercalate (tokens.map Token.written)) = .ok tokens) := by
  refine ⟨⟨Text.words line, fun others => Text.hasRuns_iff, areRead_ofLine line⟩, ?_⟩
  intro arePlain
  refine ⟨fun hasRuns => ofLine_of_words arePlain (Text.hasRuns_iff.mp hasRuns), ?_⟩
  intro gap someBlank isBlank
  exact ofLine_of_words arePlain (words_intercalate someBlank isBlank arePlain)

/-- Words with slashes in their texts. -/
def slashes : List Token :=
  [⟨"1/2", "CD"⟩, ⟨"or", "CC"⟩, ⟨"/", "SYM"⟩]

theorem ofLine_inverts_written_slashes :
    (∀ token ∈ slashes, token.IsPlain) ∧
      ofLine "\t1/2/CD or/CC\u3000 //SYM " = .ok slashes ∧
      ofLine ("\u00a0 ".intercalate (slashes.map Token.written)) = .ok slashes := by
  -- `List.Forall` is decided along the list, without going through all characters.
  have notBlank : ∀ chars : List Char, chars.Forall (Text.isBlank · = false) →
      ∀ char ∈ chars, Text.isBlank char = false :=
    fun _ => List.forall_iff_forall_mem.mp
  have arePlain : ∀ token ∈ slashes, token.IsPlain := by
    simp only [slashes, List.forall_mem_cons]
    exact ⟨⟨⟨by decide, by decide⟩, notBlank _ (by decide), notBlank _ (by decide), by decide⟩,
      ⟨⟨by decide, by decide⟩, notBlank _ (by decide), notBlank _ (by decide), by decide⟩,
      ⟨⟨by decide, by decide⟩, notBlank _ (by decide), notBlank _ (by decide), by decide⟩, nofun⟩
  have hasRuns : Text.HasRuns "\t1/2/CD or/CC\u3000 //SYM ".toList
      ((slashes.map Token.written).map String.toList) := Text.hasRuns_iff.mpr (by decide)
  obtain ⟨ofRuns, ofGap⟩ := (ofLine_inverts_written _ slashes).2 arePlain
  exact ⟨arePlain, ofRuns hasRuns, ofGap _ (by decide) (by decide)⟩

end Token

end ShallowParse
