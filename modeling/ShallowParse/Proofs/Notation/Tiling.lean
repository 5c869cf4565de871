/-
This file proves that the lexer accounts for every character of a text. The text up to where
reading stops is tiled: lexemes stand one after the other, each at the bytes it is found at
and each written with the characters there, and between them, before the first and after the
last there are blanks and comments only. Where reading stops early, what stands there is a
stretch of the text that begins where the tiles end.

The lexer takes its text step by step, so one step is shown to take a gap, a lexeme or the
stretch it is stuck at, and what the steps take is put together by induction on the length of
the text.
-/

import ShallowParse.Proofs.Notation.LexedText
import ShallowParse.Proofs.Text.Bytes

namespace ShallowParse

open Text

/-! ### Gaps -/

/-- Whether a text that something comes after is made up of blanks and comments. A comment goes on to
a line feed or to the end of all. -/
inductive Lexing.IsGap (after : List Char) : List Char → Prop where
  | nothing : IsGap after []
  | blank {char : Char} {gap : List Char} (isBlank : char ∈ [' ', '\t', '\r', '\n'])
    (others : IsGap after gap) : IsGap after (char :: gap)
  | comment {comment gap : List Char} (onOneLine : '\n' ∉ comment)
    (ends : ∀ char ∈ (gap ++ after).head?, char = '\n') (others : IsGap after gap) :
    IsGap after ('#' :: comment ++ gap)

open Lexing

theorem Lexing.IsGap.append {first second after : List Char} (ofFirst : IsGap (second ++ after) first)
    (ofSecond : IsGap after second) : IsGap after (first ++ second) := by
  induction ofFirst with
  | nothing => exact ofSecond
  | blank isBlank _ inductionHypothesis => exact .blank isBlank inductionHypothesis
  | comment onOneLine ends _ inductionHypothesis =>
    rw [List.append_assoc]
    exact .comment onOneLine (by rwa [List.append_assoc]) inductionHypothesis

/-- A line feed in a gap parts it into gaps, if it is the first one, since a comment ends there. -/
theorem Lexing.IsGap.of_append_feed {first second : List Char} (onOneLine : '\n' ∉ first)
    (isGap : IsGap [] (first ++ '\n' :: second)) : IsGap [] first ∧ IsGap [] second := by
  generalize whole : first ++ '\n' :: second = text at isGap
  induction isGap generalizing first with
  | nothing => exact absurd whole (List.append_ne_nil_of_right_ne_nil first (List.cons_ne_nil _ _))
  | blank isBlank others inductionHypothesis =>
    cases first with
    | nil =>
      obtain ⟨_, rfl⟩ := List.cons.inj whole
      exact ⟨.nothing, others⟩
    | cons char first =>
      obtain ⟨rfl, ofOthers⟩ := List.cons.inj whole
      obtain ⟨isFirst, isSecond⟩ :=
        inductionHypothesis (List.not_mem_of_not_mem_cons onOneLine) ofOthers
      exact ⟨.blank isBlank isFirst, isSecond⟩
  | @comment comment gap noBreak ends others inductionHypothesis =>
    cases first with
    | nil => cases (List.cons.inj whole).1
    | cons char first =>
      obtain ⟨rfl, ofOthers⟩ := List.cons.inj whole
      rw [List.append_nil] at ends
      -- The comment ends where the first line feed stands, and so does `first`.
      obtain ⟨rfl, rfl⟩ := eq_of_stops
        (List.forall_mem_singleton.mpr (List.not_mem_of_not_mem_cons onOneLine))
        (List.forall_mem_singleton.mpr noBreak) (by rintro _ ⟨⟩; exact List.mem_cons_self)
        (fun stop isFirst => List.mem_singleton.mpr (ends stop isFirst)) ofOthers
      rw [← List.append_nil ('#' :: first)]
      exact ⟨.comment noBreak nofun .nothing, (inductionHypothesis List.not_mem_nil rfl).2⟩

/-! ### One step -/

namespace Lexeme

theorem classStep_ne_skipped (rest : List Char) : (classStep rest).start ≠ .skipped := by
  rw [classStep]
  split <;> exact Start.noConfusion

theorem closedBounds_ne_skipped (least : List Char) (most : Option (List Char)) (extra : Nat) :
    (closedBounds least most extra).start ≠ .skipped := by
  rw [closedBounds]
  split <;> exact Start.noConfusion

theorem braceStep_ne_skipped (rest : List Char) : (braceStep rest).start ≠ .skipped := by
  rw [braceStep]
  split
  · exact Start.noConfusion
  · split
    · exact closedBounds_ne_skipped _ _ _
    · dsimp only
      split
      · exact closedBounds_ne_skipped _ _ _
      · exact Start.noConfusion
    · exact Start.noConfusion

/-- What follows the characters of a line is a line feed or nothing. -/
theorem head?_drop_line (text : List Char) :
    ∀ char ∈ (text.drop (text.takeWhile (· ≠ '\n')).length).head?, char = '\n' := by
  have isRest : text.drop (text.takeWhile (· ≠ '\n')).length = text.dropWhile (· ≠ '\n') :=
    calc
      _ = (text.takeWhile (· ≠ '\n') ++ text.dropWhile (· ≠ '\n')).drop
          (text.takeWhile (· ≠ '\n')).length := by rw [List.takeWhile_append_dropWhile]
      _ = _ := List.drop_left
  intro char isFirst
  have stops := List.head?_dropWhile_not (· ≠ '\n') text
  rw [← isRest, isFirst] at stops
  simpa using stops

/-- What is skipped is a gap. -/
theorem isGap_of_step {first : Char} {rest : List Char}
    (skipped : (step first rest).start = .skipped) :
    IsGap (rest.drop (step first rest).extra) (first :: rest.take (step first rest).extra) := by
  rw [step.eq_def] at skipped ⊢
  split at skipped
  case h_1 => exact .blank (by decide) .nothing
  case h_2 => exact .blank (by decide) .nothing
  case h_3 => exact .blank (by decide) .nothing
  case h_4 => exact .blank (by decide) .nothing
  case h_5 =>
    have onOneLine : '\n' ∉ rest.takeWhile (· ≠ '\n') := fun isBreak => by
      simpa using List.all_eq_true.mp List.all_takeWhile _ isBreak
    show IsGap (rest.drop (rest.takeWhile (· ≠ '\n')).length) ('#' :: rest.take _)
    rw [take_length_takeWhile, ← List.append_nil ('#' :: _)]
    exact .comment onOneLine (head?_drop_line rest) .nothing
  case h_6 => exact absurd skipped (classStep_ne_skipped rest)
  case h_7 => exact absurd skipped (braceStep_ne_skipped rest)
  case h_16 => split at skipped <;> cases skipped
  all_goals cases skipped

end Lexeme

namespace Lexing

/-- Characters that belong to the last lexeme are counted. -/
theorem ofChars_eq (extra offset : Nat) (text : List Char) :
    ofChars extra offset text =
      ofChars 0 (offset + byteLength (text.take extra)) (text.drop extra) := by
  induction text generalizing extra offset with
  | nil => rw [List.take_nil, List.drop_nil, ofChars, ofChars]
  | cons char rest inductionHypothesis =>
    cases extra with
    | zero => rfl
    | succ extra =>
      rw [ofChars, inductionHypothesis, List.take_succ_cons, byteLength, Nat.add_assoc]
      rfl

/-- A step takes some characters, and the lexer goes on with the others. -/
theorem ofChars_cons (offset : Nat) (char : Char) (rest : List Char) :
    ofChars 0 offset (char :: rest) =
      let step := Lexeme.step char rest
      let text := char :: rest.take step.extra
      let next := ofChars 0 (offset + byteLength text) (rest.drop step.extra)
      match step.start with
      | .skipped => next
      | .found lexeme => next.cons ⟨lexeme, offset, offset + byteLength text⟩
      | .stuck => ⟨[], some ⟨String.ofList text, offset, offset + byteLength text⟩⟩ := by
  rw [ofChars, ofChars_eq, Nat.add_assoc]
  rfl

/-! ### Tiles -/

/-- Whether a text that begins at an offset, and that something comes after, is made up of gaps and of
lexemes that are found in it. Each is placed at the bytes of the characters it is written with. -/
inductive Tiles (after : List Char) : Nat → List Char → List (Placed Lexeme) → Prop where
  | gap {offset : Nat} {gap : List Char} (isGap : IsGap after gap) : Tiles after offset gap []
  | lexeme {offset : Nat} {gap text rest : List Char} {lexeme : Lexeme}
    {found : List (Placed Lexeme)} (isGap : IsGap (text ++ rest ++ after) gap)
    (hasText : lexeme.HasText text)
    (others : Tiles after (offset + byteLength (gap ++ text)) rest found) :
    Tiles after offset (gap ++ text ++ rest)
      (⟨lexeme, offset + byteLength gap, offset + byteLength (gap ++ text)⟩ :: found)

namespace Tiles

variable {after text : List Char} {offset : Nat} {found : List (Placed Lexeme)}

/-- A gap before tiles belongs to their first gap. -/
theorem gap_append {gap : List Char} (isGap : IsGap (text ++ after) gap)
    (tiles : Tiles after (offset + byteLength gap) text found) :
    Tiles after offset (gap ++ text) found := by
  cases tiles with
  | gap isGapToo => exact .gap (isGap.append isGapToo)
  | @lexeme _ gapToo stretch rest lexeme found isGapToo hasText others =>
    rw [Nat.add_assoc, ← byteLength_append, ← List.append_assoc] at others
    rw [Nat.add_assoc, Nat.add_assoc, ← byteLength_append, ← byteLength_append,
      ← List.append_assoc, ← List.append_assoc]
    rw [List.append_assoc gapToo, List.append_assoc gapToo] at isGap
    exact .lexeme (isGap.append isGapToo) hasText others

/-- The lexemes of tiles are placed at stretches of the text that they are written with. -/
theorem exists_stretch (tiles : Tiles after offset text found) : ∀ placed ∈ found,
    ∃ before stretch rest, text = before ++ stretch ++ rest ∧
      placed.start = offset + byteLength before ∧
      placed.stop = offset + byteLength (before ++ stretch) ∧ placed.value.HasText stretch := by
  induction tiles with
  | gap isGap => exact List.forall_mem_nil _
  | @lexeme offset gap stretch rest lexeme found isGap hasText _ inductionHypothesis =>
    refine List.forall_mem_cons.mpr ⟨⟨gap, stretch, rest, rfl, rfl, rfl, hasText⟩, ?_⟩
    intro placed member
    obtain ⟨before, other, after, rfl, isStart, isStop, ofOther⟩ := inductionHypothesis placed member
    rw [Nat.add_assoc, ← byteLength_append] at isStart isStop
    exact ⟨gap ++ stretch ++ before, other, after, by simp only [List.append_assoc], isStart,
      by simp only [isStop, List.append_assoc], ofOther⟩

/-- The lexemes of tiles are apart and in order. -/
theorem pairwise (tiles : Tiles after offset text found) :
    found.Pairwise fun first second => first.stop ≤ second.start := by
  induction tiles with
  | gap isGap => exact .nil
  | lexeme isGap hasText others inductionHypothesis =>
    refine .cons (fun placed member => ?_) inductionHypothesis
    obtain ⟨_, _, _, _, isStart, _⟩ := others.exists_stretch placed member
    rw [isStart]
    exact Nat.le_add_right _ _

/-- In the text that tiles are a beginning of, their lexemes are found at the bytes they are placed at. -/
theorem hasText_slice (tiles : Tiles after 0 text found) : ∀ placed ∈ found,
    placed.start < placed.stop ∧ placed.stop ≤ byteLength (text ++ after) ∧
      placed.value.HasText (slice (text ++ after) placed.start placed.stop) := by
  intro placed member
  obtain ⟨before, stretch, rest, rfl, isStart, isStop, hasText⟩ := tiles.exists_stretch placed member
  rw [Nat.zero_add] at isStart isStop
  rw [isStart, isStop]
  refine ⟨?_, ?_, ?_⟩
  · rw [byteLength_append]
    exact Nat.lt_add_of_pos_right (byteLength_pos hasText.ne_nil)
  · rw [List.append_assoc, byteLength_append (before ++ stretch)]
    exact Nat.le_add_right _ _
  · rwa [List.append_assoc, slice_append]

end Tiles

/-! ### A whole text -/

/-- Whether the lexer accounts for a text that begins at an offset. Either tiles make it up, or they
make up its beginning and a stretch that is not empty comes next. -/
inductive AccountsFor (offset : Nat) : List Char → Lexing → Prop where
  | all {text : List Char} {found : List (Placed Lexeme)} (tiles : Tiles [] offset text found) :
    AccountsFor offset text ⟨found, none⟩
  | stuck {before stretch after : List Char} {found : List (Placed Lexeme)}
    (notEmpty : stretch ≠ []) (tiles : Tiles (stretch ++ after) offset before found) :
    AccountsFor offset (before ++ stretch ++ after)
      ⟨found, some ⟨String.ofList stretch, offset + byteLength before,
        offset + byteLength (before ++ stretch)⟩⟩

/-- Characters that may stand before tiles may stand before all that the lexer accounts for. -/
theorem AccountsFor.append {offset : Nat} {taken rest : List Char} {lexing : Lexing}
    (change : List (Placed Lexeme) → List (Placed Lexeme))
    (extend : ∀ {after text found}, text ++ after = rest →
      Tiles after (offset + byteLength taken) text found →
        Tiles after offset (taken ++ text) (change found))
    (accounts : AccountsFor (offset + byteLength taken) rest lexing) :
    AccountsFor offset (taken ++ rest) { lexing with found := change lexing.found } := by
  cases accounts with
  | all tiles => exact .all (extend (List.append_nil _) tiles)
  | stuck notEmpty tiles =>
    have extended := extend (List.append_assoc _ _ _).symm tiles
    rw [Nat.add_assoc, Nat.add_assoc, ← byteLength_append, ← byteLength_append,
      ← List.append_assoc, ← List.append_assoc]
    exact .stuck notEmpty extended

/-- The lexer accounts for what it reads. -/
theorem accountsFor_ofChars (offset : Nat) (text : List Char) :
    AccountsFor offset text (ofChars 0 offset text) := by
  cases text with
  | nil =>
    rw [ofChars]
    exact .all (.gap .nothing)
  | cons char rest =>
    have parted : char :: rest = char :: rest.take (Lexeme.step char rest).extra ++
        rest.drop (Lexeme.step char rest).extra := by
      rw [List.cons_append, List.take_append_drop]
    -- What a step leaves is shorter than the text, however little the step takes.
    have ofRest := accountsFor_ofChars
      (offset + byteLength (char :: rest.take (Lexeme.step char rest).extra))
      (rest.drop (Lexeme.step char rest).extra)
    rw [ofChars_cons, parted]
    cases isStart : (Lexeme.step char rest).start with
    | skipped =>
      simp only [isStart]
      exact ofRest.append id fun isRest tiles =>
        tiles.gap_append (isRest ▸ Lexeme.isGap_of_step isStart)
    | found lexeme =>
      simp only [isStart]
      exact ofRest.append _ fun _ tiles =>
        .lexeme .nothing (Lexeme.hasText_of_step isStart) tiles
    | stuck =>
      simp only [isStart]
      exact .stuck (List.cons_ne_nil _ _) (.gap .nothing)
termination_by text.length
decreasing_by
  rw [List.length_drop, List.length_cons]
  omega

/-- Nothing is read in a gap. -/
theorem lexemesAfter_gap {gap : List Char} (isGap : IsGap [] gap) :
    lexemesAfter 0 gap = some [] := by
  induction isGap with
  | nothing => rfl
  | @blank char gap isBlank _ inductionHypothesis =>
    simp only [List.mem_cons, List.not_mem_nil, or_false] at isBlank
    rcases isBlank with rfl | rfl | rfl | rfl <;> exact inductionHypothesis
  | @comment comment gap onOneLine ends _ inductionHypothesis =>
    rw [List.append_nil] at ends
    have isAll : (comment ++ gap).takeWhile (· ≠ '\n') = comment := by
      refine takeWhile_append_of_ends (fun char member => decide_eq_true ?_) fun char isFirst =>
        decide_eq_false (not_not_intro (ends char isFirst))
      rintro rfl
      exact onOneLine member
    show lexemesAfter ((comment ++ gap).takeWhile (· ≠ '\n')).length (comment ++ gap) = _
    rw [isAll, passesOver_lexemesAfter.append, inductionHypothesis]

end Lexing

/-- A text has no lexemes and can be read just if it is made up of blanks and comments. -/
theorem Lexeme.ofText_eq_nil_iff {text : String} :
    Lexeme.ofText text = .ok [] ↔ IsGap [] text.toList := by
  constructor
  · intro read
    rw [Lexeme.ofText, Lexing.ofText] at read
    have accounts := accountsFor_ofChars 0 text.toList
    generalize ofChars 0 0 text.toList = lexing at read accounts
    generalize text.toList = text at accounts ⊢
    cases accounts with
    | all tiles =>
      cases tiles with
      | gap isGap => exact isGap
      | lexeme => cases read
    | stuck => cases read
  · intro isGap
    exact Lexeme.ofText_eq_ok_iff.mpr (lexemesAfter_gap isGap)

namespace Lexing

/-- Lexemes that are written with a space between them are read again. -/
theorem lexemesAfter_spaced {found : List (Placed Lexeme)} {textOf : Placed Lexeme → List Char}
    (haveText : ∀ placed ∈ found, placed.value.HasText (textOf placed)) :
    lexemesAfter 0 ([' '].intercalate (found.map textOf)) = some (found.map Placed.value) := by
  induction found with
  | nil => rfl
  | cons placed others inductionHypothesis =>
    obtain ⟨hasText, othersHave⟩ := List.forall_mem_cons.mp haveText
    cases others with
    | nil =>
      have read : lexemesAfter 0 (textOf placed ++ []) = _ := hasText.lexemesAfter_append nofun
      rw [List.append_nil] at read
      rw [List.map_singleton, List.intercalate_singleton, read]
      rfl
    | cons next others =>
      rw [List.map_cons, List.map_cons, List.intercalate_cons_cons, List.append_assoc,
        hasText.lexemesAfter_append (by rintro _ ⟨⟩; rfl)]
      have ofOthers := inductionHypothesis othersHave
      rw [List.map_cons] at ofOthers
      show (lexemesAfter 0 ([' '].intercalate _)).map _ = _
      rw [ofOthers]
      rfl

/-- The lexer accounts for every character of a text. The lexemes it finds are placed at stretches of the
text that are not empty, apart and in order, and each is written with its stretch. Where it reads
the text to its end, there is nothing else in it but blanks and comments, and the stretches with a
space between them have the same lexemes. Otherwise what it reports is not empty, stands in the text
at the byte it names, between two characters, and what comes before is accounted for as well. -/
theorem ofText_accounts_for_all (source : String) :
    let lexing := ofText source
    (∀ placed ∈ lexing.found,
      placed.start < placed.stop ∧ placed.stop ≤ byteLength source.toList ∧
        placed.value.HasText (slice source.toList placed.start placed.stop)) ∧
    lexing.found.Pairwise (fun first second => first.stop ≤ second.start) ∧
    (∀ lexemes, Lexeme.ofText source = .ok lexemes →
      lexing.found.map Placed.value = lexemes ∧ Tiles [] 0 source.toList lexing.found ∧
        Lexeme.ofText (String.ofList ([' '].intercalate (lexing.found.map fun placed =>
          slice source.toList placed.start placed.stop))) = .ok lexemes) ∧
    ∀ cause, Lexeme.ofText source = .error cause →
      ∃ before stretch after, source.toList = before ++ stretch ++ after ∧ stretch ≠ [] ∧
        cause = .unexpectedText (byteLength before) (String.ofList stretch) ∧
        Tiles (stretch ++ after) 0 before lexing.found := by
  have accounts : AccountsFor 0 source.toList (ofText source) := accountsFor_ofChars 0 source.toList
  rw [Lexeme.ofText]
  generalize ofText source = lexing at accounts ⊢
  generalize source.toList = text at accounts ⊢
  cases accounts with
  | @all text found tiles =>
    have haveText := tiles.hasText_slice
    rw [List.append_nil] at haveText
    refine ⟨haveText, tiles.pairwise, fun lexemes read => ?_, fun cause failed => ?_⟩
    · cases read
      refine ⟨rfl, tiles, Lexeme.ofText_eq_ok_iff.mpr ?_⟩
      rw [String.toList_ofList]
      exact lexemesAfter_spaced fun placed member => (haveText placed member).2.2
    · cases failed
  | @stuck before stretch after found notEmpty tiles =>
    have haveText := tiles.hasText_slice
    rw [← List.append_assoc] at haveText
    refine ⟨haveText, tiles.pairwise, fun lexemes read => ?_, fun cause failed => ?_⟩
    · cases read
    · cases failed
      exact ⟨before, stretch, after, rfl, notEmpty, by rw [Nat.zero_add], tiles⟩

/-- A class that is not closed is found after a comment, and a comment after the last lexeme. -/
theorem ofText_accounts_for_comments :
    (∃ before stretch after, "# é\n<DT".toList = before ++ stretch ++ after ∧
      NotationError.unexpectedText 5 "<DT" =
        .unexpectedText (byteLength before) (String.ofList stretch)) ∧
      Tiles [] 0 "NP:#é".toList (ofText "NP:#é").found := by
  obtain ⟨_, _, _, ofUnclosed⟩ := ofText_accounts_for_all "# é\n<DT"
  obtain ⟨_, _, ofLabel, _⟩ := ofText_accounts_for_all "NP:#é"
  obtain ⟨before, stretch, after, parted, _, isCause, _⟩ := ofUnclosed _ rfl
  exact ⟨⟨before, stretch, after, parted, isCause⟩, (ofLabel _ rfl).2.1⟩

end Lexing

end ShallowParse
