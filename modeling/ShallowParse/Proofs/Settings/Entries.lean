/-
This file proves that the entries of the settings which hold rules do not influence each other.
The reader of rules goes over all of them as one text, and within an entry it goes on as a reader
would that began there afresh: it knows the rules of the entries before, and perhaps a label that
the other one does not know, but each line that the other one accepts has the same effect. An entry
that is accepted on its own leaves no label waiting for the next one.
-/

import Mathlib.Data.List.Forall2
import ShallowParse.Proofs.Grammar.Acceptance
import ShallowParse.Proofs.Notation.LineEnds
import ShallowParse.Proofs.Notation.RuleLines
import ShallowParse.Proofs.Outcome
import ShallowParse.Proofs.Text.Lines
import ShallowParse.Settings

namespace ShallowParse

namespace RulesReader

/-! ### Going on as if afresh -/

/-- Whether a reader that has read some rules earlier goes on as another reader does. -/
structure Continues (earlier : List Rule) (fresh reader : RulesReader) : Prop where
  rules : reader.rules = fresh.rules ++ earlier
  label : ∀ name ∈ fresh.label, reader.label = some name
  pending : reader.pending.map Prod.snd = fresh.pending.map Prod.snd

theorem Continues.unfinished?_eq_none {earlier : List Rule} {fresh reader : RulesReader}
    (continues : Continues earlier fresh reader) (finished : fresh.unfinished? = none) :
    reader.unfinished? = none := by
  rw [unfinished?, Option.map_eq_none_iff] at finished ⊢
  have samePending := continues.pending
  rwa [finished, Option.map_none, Option.map_eq_none_iff] at samePending

/-- A reader that has read some rules earlier goes on as a fresh one does that has read nothing. -/
theorem continues_start {reader : RulesReader} (noneWaits : reader.pending = none) :
    Continues reader.rules start reader :=
  ⟨rfl, nofun, by rw [noneWaits]; rfl⟩

/-- What a fresh reader takes of a line, a reader that goes on as it does takes as well. -/
theorem Continues.addText {earlier : List Rule} {fresh reader next : RulesReader}
    (continues : Continues earlier fresh reader) {text other : String}
    (sameKind : LineKind.ofText other = LineKind.ofText text) {line : Nat}
    (added : fresh.addText line text = .ok next) (otherLine : Nat) :
    ∃ after, reader.addText otherLine other = .ok after ∧ Continues earlier next after := by
  have takes := addText_eq_ok_iff.mp added
  simp only [addText_eq_ok_iff, sameKind]
  generalize LineKind.ofText text = kind at takes
  cases takes with
  | blank => exact ⟨reader, .blank, continues⟩
  | label name finished =>
    exact ⟨_, .label name (continues.unfinished?_eq_none finished), continues.rules,
      fun _ isLabel => isLabel, rfl⟩
  | pattern body inForce =>
    exact ⟨_, .pattern body (continues.label _ inForce), congrArg (_ :: ·) continues.rules,
      fun _ isLabel => isLabel, rfl⟩
  | rule name body finished =>
    exact ⟨_, .rule name body (continues.unfinished?_eq_none finished),
      congrArg (_ :: ·) continues.rules, fun _ isLabel => isLabel, rfl⟩

theorem Continues.addLines {earlier : List Rule} {fresh reader next : RulesReader}
    (continues : Continues earlier fresh reader) {texts : List String} {line : Nat}
    (added : fresh.addLines line texts = .ok next) (otherLine : Nat) :
    ∃ after, reader.addLines otherLine texts = .ok after ∧ Continues earlier next after := by
  induction texts generalizing fresh reader line otherLine with
  | nil =>
    cases added
    exact ⟨reader, rfl, continues⟩
  | cons text texts inductionHypothesis =>
    obtain ⟨second, first, added⟩ := Outcome.bind_eq_ok_iff.mp added
    obtain ⟨between, taken, continues⟩ := continues.addText rfl first otherLine
    obtain ⟨after, addedAfter, continues⟩ := inductionHypothesis continues added (otherLine + 1)
    exact ⟨after, Outcome.bind_eq_ok_iff.mpr ⟨between, taken, addedAfter⟩, continues⟩

theorem finish_eq_ok_iff {reader : RulesReader} {rules : List Rule} :
    reader.finish = .ok rules ↔ reader.pending = none ∧ reader.rules.reverse = rules := by
  rw [finish, unfinished?]
  cases reader.pending with
  | some waiting => simp
  | none => exact ⟨fun done => ⟨rfl, Except.ok.inj done⟩, fun same => congrArg _ same.2⟩

/-! ### One entry -/

theorem addLines_append (reader : RulesReader) (line : Nat) (texts others : List String) :
    reader.addLines line (texts ++ others) =
      reader.addLines line texts >>= fun next => next.addLines (line + texts.length) others := by
  induction texts generalizing reader line with
  | nil => rfl
  | cons text texts inductionHypothesis =>
    rw [List.cons_append, addLines, addLines, bind_assoc, List.length_cons,
      Nat.add_comm texts.length, ← Nat.add_assoc]
    exact congrArg (reader.addText line text >>= ·)
      (funext fun next => inductionHypothesis next (line + 1))

theorem addLines_append_eq_ok_iff {reader next : RulesReader} {line : Nat}
    {texts others : List String} :
    reader.addLines line (texts ++ others) = .ok next ↔
      ∃ between, reader.addLines line texts = .ok between ∧
        between.addLines (line + texts.length) others = .ok next := by
  rw [addLines_append, Outcome.bind_eq_ok_iff]

theorem addLines_singleton (reader : RulesReader) (line : Nat) (text : String) :
    reader.addLines line [text] = reader.addText line text := by
  rw [addLines]
  exact bind_pure _

/-- A line that is read is of the same kind without the carriage return that may end it. -/
theorem kind_eq_of_addText_return {reader next : RulesReader} {line : Nat} {text : String}
    (added : reader.addText line (text ++ "\r") = .ok next) :
    LineKind.ofText text = LineKind.ofText (text ++ "\r") := by
  obtain ⟨lexemes, lexed, _⟩ := Outcome.bind_eq_ok_iff.mp added
  rw [Outcome.mapError_eq_ok_iff] at lexed
  rw [LineKind.ofText, LineKind.ofText, lexed, Lexeme.ofText_of_append_return lexed]

/-- What a fresh reader takes of an entry, a reader that goes on as it does takes of the lines of the
entry in a longer text. -/
theorem Continues.addEntry {earlier : List Rule} {fresh reader next : RulesReader}
    (continues : Continues earlier fresh reader) {entry : String} {line : Nat}
    (added : fresh.addLines line (Text.lines entry) = .ok next) (others : String)
    (otherLine : Nat) :
    ∃ texts after, Text.lines (entry ++ "\n" ++ others) = texts ++ Text.lines others ∧
      reader.addLines otherLine texts = .ok after ∧ Continues earlier next after := by
  obtain ⟨whole, last, isLonger, isEntry⟩ := Text.lines_append_feed entry others
  refine ⟨whole ++ [last], ?_⟩
  suffices taken : ∃ after, reader.addLines otherLine (whole ++ [last]) = .ok after ∧
      Continues earlier next after by
    obtain ⟨after, taken, continues⟩ := taken
    exact ⟨after, by rw [isLonger, List.append_assoc, List.singleton_append], taken, continues⟩
  -- The entry ends a line itself, or within a line, or with a carriage return that is now dropped.
  rcases isEntry with ⟨isWhole, rfl⟩ | isLine | isEnded
  · rw [isWhole] at added
    obtain ⟨after, taken, continues⟩ := continues.addLines added otherLine
    exact ⟨after, addLines_append_eq_ok_iff.mpr ⟨after, taken, rfl⟩, continues⟩
  · rw [isLine] at added
    exact continues.addLines added otherLine
  · rw [isEnded] at added
    obtain ⟨between, first, addedLast⟩ := addLines_append_eq_ok_iff.mp added
    rw [addLines_singleton] at addedLast
    obtain ⟨middle, taken, continues⟩ := continues.addLines first otherLine
    obtain ⟨after, takenLast, continues⟩ := continues.addText (kind_eq_of_addText_return addedLast)
      addedLast (otherLine + whole.length)
    rw [← addLines_singleton] at takenLast
    exact ⟨after, addLines_append_eq_ok_iff.mpr ⟨middle, taken, takenLast⟩, continues⟩

/-! ### All entries -/

/-- Entries that are read on their own are read one after the other by a reader that waits for
nothing, and then waits for nothing again. -/
theorem addLines_entries {entries : List String} {parts : List (List Rule)}
    (areRead : List.Forall₂ (fun entry rules => Rule.allOfText entry = .ok rules) entries parts)
    (reader : RulesReader) (noneWaits : reader.pending = none) (line : Nat) :
    ∃ next, reader.addLines line (Text.lines (String.join (entries.map (· ++ "\n")))) = .ok next ∧
      next.pending = none ∧ next.rules = parts.flatten.reverse ++ reader.rules := by
  induction areRead generalizing reader line with
  | nil => exact ⟨reader, rfl, noneWaits, rfl⟩
  | @cons entry rules entries parts isRead _ inductionHypothesis =>
    obtain ⟨last, added, finished⟩ := Outcome.bind_eq_ok_iff.mp isRead
    obtain ⟨noneLeft, rfl⟩ := finish_eq_ok_iff.mp finished
    rw [List.map_cons, String.join_cons]
    obtain ⟨texts, after, parted, taken, continues⟩ := (continues_start noneWaits).addEntry added
      (String.join (entries.map (· ++ "\n"))) line
    have noneWaitsAfter : after.pending = none := by
      have samePending := continues.pending
      rwa [noneLeft, Option.map_none, Option.map_eq_none_iff] at samePending
    obtain ⟨next, addedNext, noneLeftNext, areRules⟩ :=
      inductionHypothesis after noneWaitsAfter (line + texts.length)
    refine ⟨next, ?_, noneLeftNext, ?_⟩
    · rw [parted]
      exact addLines_append_eq_ok_iff.mpr ⟨after, taken, addedNext⟩
    · rw [areRules, continues.rules, List.flatten_cons, List.reverse_append, List.reverse_reverse,
        List.append_assoc]

end RulesReader

namespace Settings

/-- Each entry is ended by a line feed. -/
theorem intercalate_feed {entries : List String} (someEntry : entries ≠ []) :
    "\n".intercalate entries ++ "\n" = String.join (entries.map (· ++ "\n")) := by
  induction entries with
  | nil => exact absurd rfl someEntry
  | cons entry entries inductionHypothesis =>
    rw [List.map_cons, String.join_cons]
    cases entries with
    | nil => rw [String.intercalate_singleton, List.map_nil, String.join_nil, String.append_empty]
    | cons next entries =>
      rw [← inductionHypothesis (List.cons_ne_nil _ _), String.intercalate_cons_cons,
        String.append_assoc]

/-- Entries that are read on their own are read together as their rules in order. Where there is no
entry, there is only an empty line. -/
theorem allOfText_source {settings : Settings} {parts : List (List Rule)}
    (areRead : List.Forall₂ (fun entry rules => Rule.allOfText entry = .ok rules) settings.rules
      parts) : Rule.allOfText settings.source = .ok parts.flatten := by
  by_cases someEntry : settings.rules = []
  · rw [someEntry, List.forall₂_nil_left_iff] at areRead
    rw [source, someEntry, areRead]
    rfl
  · obtain ⟨next, added, noneLeft, areRules⟩ :=
      RulesReader.addLines_entries areRead RulesReader.start rfl 1
    rw [source, intercalate_feed someEntry]
    refine Outcome.bind_eq_ok_iff.mpr ⟨next, added, RulesReader.finish_eq_ok_iff.mpr ⟨noneLeft, ?_⟩⟩
    rw [areRules, List.reverse_append, List.reverse_reverse]
    rfl

/-- Entries of rules compose. If each entry is accepted on its own, whatever lines and comments it
has and however it ends, their text is read as the rules of all entries in order. There is then a
chunker just if there is a grammar of these rules, and it has this grammar and the root label of the
settings. -/
theorem entries_compose {settings : Settings} {parts : List (List Rule)}
    (areRead : List.Forall₂ (fun entry rules => Rule.allOfText entry = .ok rules) settings.rules
      parts) :
    Rule.allOfText settings.source = .ok parts.flatten ∧
    ((∃ chunker, settings.chunker = .ok chunker) ↔
      ∃ grammar, Grammar.ofRules parts.flatten = .ok grammar) ∧
    ∀ chunker, settings.chunker = .ok chunker →
      Grammar.ofRules parts.flatten = .ok chunker.grammar ∧
        chunker.grammar.rules = parts.flatten ∧ chunker.rootLabel = settings.rootLabel := by
  have isRead := allOfText_source areRead
  have isChunker : settings.chunker =
      (Grammar.ofRules parts.flatten).map fun grammar => ⟨grammar, settings.rootLabel⟩ := by
    rw [chunker, Grammar.ofText, isRead]
    rfl
  refine ⟨isRead, ?_, ?_⟩
  · simp only [isChunker, Outcome.map_eq_ok_iff]
    exact ⟨fun ⟨_, grammar, isGrammar, _⟩ => ⟨grammar, isGrammar⟩,
      fun ⟨grammar, isGrammar⟩ => ⟨_, grammar, isGrammar, rfl⟩⟩
  · intro chunker isBuilt
    rw [isChunker, Outcome.map_eq_ok_iff] at isBuilt
    obtain ⟨grammar, isGrammar, rfl⟩ := isBuilt
    exact ⟨isGrammar, ((Grammar.ofRules_eq_ok_iff _ _).mp isGrammar).1, rfl⟩

/-- Settings with an entry of several lines that ends with a carriage return, one that is only a
comment, and one with a comment after its rule. -/
def severalEntries : Settings :=
  { rootLabel := "ROOT"
    rules := ["NP:\n  \x7b<NN>+\x7d\n  \x7b<PRP>\x7d\r", "# verbs", "VP: \x7b<VB><NP>\x7d # last"]
    format := "bracket"
    traces := false
    logLevel := "warn" }

/-- The rules of each entry. -/
def severalParts : List (List Rule) :=
  [[⟨"NP", .repetition (.exactly "NN") 1 none⟩, ⟨"NP", .exactly "PRP"⟩], [],
    [⟨"VP", .sequence [.exactly "VB", .exactly "NP"]⟩]]

theorem entries_compose_severalEntries :
    List.Forall₂ (fun entry rules => Rule.allOfText entry = .ok rules) severalEntries.rules
        severalParts ∧
      ∃ chunker, severalEntries.chunker = .ok chunker ∧
        chunker.grammar.rules = severalParts.flatten ∧ chunker.rootLabel = "ROOT" := by
  have areRead : List.Forall₂ (fun entry rules => Rule.allOfText entry = .ok rules)
      severalEntries.rules severalParts :=
    .cons (by decide +kernel) (.cons (by decide +kernel) (.cons (by decide +kernel) .nil))
  obtain ⟨_, succeeds, isBuilt⟩ := entries_compose areRead
  obtain ⟨chunker, built⟩ := succeeds.mpr ⟨_, rfl⟩
  exact ⟨areRead, chunker, built, (isBuilt chunker built).2⟩

end Settings

end ShallowParse
