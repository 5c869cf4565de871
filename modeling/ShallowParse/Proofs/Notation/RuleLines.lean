/-
This file says how the rules of a text follow from the kinds of its lines. A line is
blank, a label, a pattern, both, or bad. Reading stops at the first line, or at the end,
where something is wrong with the lines up to there: a bad line, a pattern that no
label precedes, or the end or a new label where one still waits for a pattern. Where
reading never stops, each pattern makes a rule under the label in force.
-/

import Mathlib.Data.List.Basic
import ShallowParse.Notation.Rules
import ShallowParse.Proofs.Notation.LineReading
import ShallowParse.Proofs.Outcome

namespace ShallowParse

/-! ### Kinds of lines -/

/-- What a line of a text in rule notation holds. -/
inductive LineKind where
  | blank
  | label (name : String)
  | pattern (pattern : Pattern)
  | rule (name : String) (pattern : Pattern)
  | bad (cause : NotationError)

namespace LineKind

def ofRuleLine : RuleLine → LineKind
  | ⟨none, none⟩ => blank
  | ⟨some name, none⟩ => label name
  | ⟨none, some body⟩ => pattern body
  | ⟨some name, some body⟩ => rule name body

def ofLexemes : List Lexeme → LineKind
  | [] => blank
  | lexeme :: rest =>
    match RuleLine.ofLexemes (lexeme :: rest) with
    | .error cause => bad cause
    | .ok line => ofRuleLine line

/-- The kind of a line of text. -/
def ofText (text : String) : LineKind :=
  match Lexeme.ofText text with
  | .error cause => bad cause
  | .ok lexemes => ofLexemes lexemes

def label? : LineKind → Option String
  | label name => some name
  | rule name _ => some name
  | _ => none

def pattern? : LineKind → Option Pattern
  | pattern body => some body
  | rule _ body => some body
  | _ => none

theorem ofRuleLine_ne_blank {lexemes : List Lexeme} {line : RuleLine}
    (read : RuleLine.ofLexemes lexemes = .ok line) : ofRuleLine line ≠ blank := by
  obtain ⟨⟨label, body, isPresent⟩, _, rfl⟩ := (RuleLine.ofLexemes_eq_ok_iff lexemes line).mp read
  cases label with
  | some name => cases body <;> exact LineKind.noConfusion
  | none =>
    cases body with
    | some body => exact LineKind.noConfusion
    | none => cases isPresent

/-- A line is blank just if it has no lexemes, that is if it holds spaces and comments only. -/
theorem ofText_eq_blank_iff (text : String) :
    ofText text = blank ↔ Lexeme.ofText text = .ok [] := by
  rw [ofText]
  cases Lexeme.ofText text with
  | error cause => exact ⟨nofun, nofun⟩
  | ok lexemes =>
    cases lexemes with
    | nil => exact ⟨fun _ => rfl, fun _ => rfl⟩
    | cons lexeme rest =>
      refine ⟨fun isBlank => ?_, nofun⟩
      change ofLexemes (lexeme :: rest) = blank at isBlank
      rw [ofLexemes] at isBlank
      cases read : RuleLine.ofLexemes (lexeme :: rest) with
      | error cause => rw [read] at isBlank; cases isBlank
      | ok line => rw [read] at isBlank; exact absurd isBlank (ofRuleLine_ne_blank read)

/-! ### What is wrong with lines -/

/-- Whether the last of some lines that is not blank is a label, which still waits for a pattern. The
label is on the line of the given number. -/
def Waits (above : List LineKind) (line : Nat) (name : String) : Prop :=
  ∃ before blanks, above = before ++ label name :: blanks ∧ line = before.length + 1 ∧
    ∀ kind ∈ blanks, kind = blank

/-- Whether reading, after the lines above, stops with an error at the next line, or at the end if
there is no next line. -/
inductive StopsAt (above : List LineKind) : Option LineKind → RulesError → Prop
  | bad (cause : NotationError) : StopsAt above (some (bad cause)) ⟨above.length + 1, cause⟩
  | unlabelled (body : Pattern) (noLabel : ∀ kind ∈ above, kind.label? = none) :
    StopsAt above (some (pattern body)) ⟨above.length + 1, .missingLabel⟩
  | unfinished {next : Option LineKind} {line : Nat} {name : String} (waits : Waits above line name)
    (ends : ∀ kind ∈ next, kind.label?.isSome) :
    StopsAt above next ⟨line, .missingPattern name⟩

/-- Whether nothing is wrong with lines: none is bad, a label precedes each pattern, and the first
line after a label that is not blank is a pattern. -/
structure AreInOrder (lines : List LineKind) : Prop where
  noneBad : ∀ cause, bad cause ∉ lines
  labelled : ∀ before body after, lines = before ++ pattern body :: after →
    ∃ kind ∈ before, kind.label?.isSome
  finished : ∀ before name after, lines = before ++ label name :: after →
    ∃ blanks body rest, after = blanks ++ pattern body :: rest ∧ ∀ kind ∈ blanks, kind = blank

/-! ### What lines say -/

/-- The last label of some lines. -/
def lastLabel? (lines : List LineKind) : Option String :=
  (lines.filterMap label?).getLast?

/-- The pattern of a line, with the label on the line itself or else the last one above it. -/
def labelledPattern? (lines : List LineKind) (entry : LineKind × Nat) :
    Option (Option String × Pattern) :=
  entry.1.pattern?.map (lastLabel? (lines.take (entry.2 + 1)), ·)

/-- The patterns of lines with their labels, in the order of the lines. -/
def labelledPatterns (lines : List LineKind) : List (Option String × Pattern) :=
  lines.zipIdx.filterMap (labelledPattern? lines)

theorem lastLabel?_append (lines : List LineKind) (kind : LineKind) :
    lastLabel? (lines ++ [kind]) = kind.label?.or (lastLabel? lines) := by
  rw [lastLabel?, List.filterMap_append]
  cases isLabel : kind.label? with
  | none => simp [lastLabel?, isLabel]
  | some name => simp [isLabel]

theorem labelledPatterns_append (lines : List LineKind) (kind : LineKind) :
    labelledPatterns (lines ++ [kind]) = labelledPatterns lines ++
      (kind.pattern?.map (lastLabel? (lines ++ [kind]), ·)).toList := by
  have ofAbove : ∀ entry ∈ lines.zipIdx,
      labelledPattern? (lines ++ [kind]) entry = labelledPattern? lines entry := by
    intro entry member
    have within : entry.2 + 1 ≤ lines.length := List.snd_lt_of_mem_zipIdx member
    rw [labelledPattern?, labelledPattern?, List.take_append_of_le_length within]
  have ofLast : labelledPattern? (lines ++ [kind]) (kind, lines.length) =
      kind.pattern?.map (lastLabel? (lines ++ [kind]), ·) := by
    have isAll : (lines ++ [kind]).take (lines.length + 1) = lines ++ [kind] :=
      List.take_of_length_le (Nat.le_of_eq List.length_append)
    show kind.pattern?.map (lastLabel? ((lines ++ [kind]).take (lines.length + 1)), ·) = _
    rw [isAll]
  rw [labelledPatterns, List.zipIdx_append, List.filterMap_append, List.filterMap_congr ofAbove,
    List.zipIdx_singleton, Nat.zero_add, ← ofLast]
  cases isLast : labelledPattern? (lines ++ [kind]) (kind, lines.length) with
  | none => rw [List.filterMap_cons_none isLast]; rfl
  | some pattern => rw [List.filterMap_cons_some isLast]; rfl

/-- A label goes on waiting over blank lines, and a line with a label alone begins to wait. -/
theorem waits_append_iff {above : List LineKind} {kind : LineKind} {line : Nat} {name : String} :
    Waits (above ++ [kind]) line name ↔
      kind = blank ∧ Waits above line name ∨ kind = label name ∧ line = above.length + 1 := by
  constructor
  · rintro ⟨before, blanks, parted, isLine, areBlank⟩
    rcases blanks.eq_nil_or_concat with rfl | ⟨others, last, rfl⟩
    · obtain ⟨rfl, same⟩ := List.append_inj' parted rfl
      exact Or.inr ⟨List.head_eq_of_cons_eq same, isLine⟩
    · rw [List.concat_eq_append, ← List.cons_append, ← List.append_assoc] at parted
      obtain ⟨rfl, same⟩ := List.append_inj' parted rfl
      rw [List.concat_eq_append, List.forall_mem_append] at areBlank
      obtain rfl : kind = last := List.head_eq_of_cons_eq same
      exact Or.inl ⟨areBlank.2 kind List.mem_cons_self, before, others, rfl, isLine, areBlank.1⟩
  · rintro (⟨rfl, before, blanks, rfl, isLine, areBlank⟩ | ⟨rfl, isLine⟩)
    · refine ⟨before, blanks ++ [blank], List.append_assoc _ _ _, isLine, ?_⟩
      exact List.forall_mem_append.mpr ⟨areBlank, List.forall_mem_singleton.mpr rfl⟩
    · exact ⟨above, [], rfl, isLine, List.forall_mem_nil _⟩

theorem not_waits_nil {line : Nat} {name : String} : ¬Waits [] line name := by
  rintro ⟨before, blanks, isNil, _⟩
  exact List.append_ne_nil_of_right_ne_nil before (List.cons_ne_nil _ _) isNil.symm

theorem lastLabel?_eq_none_iff {lines : List LineKind} :
    lastLabel? lines = none ↔ ∀ kind ∈ lines, kind.label? = none := by
  rw [lastLabel?, List.getLast?_eq_none_iff, List.filterMap_eq_nil_iff]

end LineKind

/-! ### One line -/

open LineKind

namespace RulesReader

theorem addText_eq (reader : RulesReader) (line : Nat) (text : String) :
    reader.addText line text =
      match ofText text with
      | .bad cause => .error ⟨line, cause⟩
      | kind => reader.addLine line ⟨kind.label?, kind.pattern?⟩ := by
  rw [addText, ofText]
  cases Lexeme.ofText text with
  | error cause => rfl
  | ok lexemes =>
    cases lexemes with
    | nil => rfl
    | cons lexeme rest =>
      show ((RuleLine.ofLexemes (lexeme :: rest)).mapError _ >>= reader.addLine line) =
        match LineKind.ofLexemes (lexeme :: rest) with
        | .bad cause => .error ⟨line, cause⟩
        | kind => reader.addLine line ⟨kind.label?, kind.pattern?⟩
      rw [LineKind.ofLexemes]
      cases RuleLine.ofLexemes (lexeme :: rest) with
      | error cause => rfl
      | ok content =>
        obtain ⟨label, body⟩ := content
        cases label <;> cases body <;> rfl

theorem addLine_of_unfinished {reader : RulesReader} {error : RulesError}
    (isUnfinished : reader.unfinished? = some error) (line : Nat) (name : String)
    (body : Option Pattern) : reader.addLine line ⟨some name, body⟩ = .error error := by
  show (reader.setLabel line name body.isSome >>= _) = _
  rw [setLabel, isUnfinished]
  rfl

theorem addLine_label {reader : RulesReader} (finished : reader.unfinished? = none) (line : Nat)
    (name : String) :
    reader.addLine line ⟨some name, none⟩ =
      .ok { reader with label := some name, pending := some (line, name) } := by
  show (reader.setLabel line name false >>= _) = _
  rw [setLabel, finished]
  rfl

theorem addLine_rule {reader : RulesReader} (finished : reader.unfinished? = none) (line : Nat)
    (name : String) (body : Pattern) :
    reader.addLine line ⟨some name, some body⟩ =
      .ok ⟨⟨name, body⟩ :: reader.rules, some name, none⟩ := by
  show (reader.setLabel line name true >>= _) = _
  rw [setLabel, finished]
  rfl

/-- A label is refused just where another one still waits for a pattern. -/
theorem addLine_eq_error_iff {reader : RulesReader} (line : Nat) (name : String)
    (body : Option Pattern) {error : RulesError} :
    reader.addLine line ⟨some name, body⟩ = .error error ↔ reader.unfinished? = some error := by
  cases unfinished : reader.unfinished? with
  | some first => rw [addLine_of_unfinished unfinished, Except.error.injEq, Option.some.injEq]
  | none =>
    cases body with
    | none =>
      rw [addLine_label unfinished]
      exact ⟨nofun, nofun⟩
    | some body =>
      rw [addLine_rule unfinished]
      exact ⟨nofun, nofun⟩

theorem addLine_pattern (reader : RulesReader) (line : Nat) (body : Pattern) :
    reader.addLine line ⟨none, some body⟩ =
      match reader.label with
      | some name => .ok { reader with rules := ⟨name, body⟩ :: reader.rules, pending := none }
      | none => .error ⟨line, .missingLabel⟩ := rfl

/-- What a reader becomes by taking a line of a certain kind. It takes no bad line, no pattern without
a label in force, and no label while another one waits for a pattern. -/
inductive Takes (line : Nat) (reader : RulesReader) : LineKind → RulesReader → Prop where
  | blank : Takes line reader .blank reader
  | label (name : String) (finished : reader.unfinished? = none) :
    Takes line reader (.label name)
      { reader with label := some name, pending := some (line, name) }
  | pattern {name : String} (body : Pattern) (inForce : reader.label = some name) :
    Takes line reader (.pattern body) ⟨⟨name, body⟩ :: reader.rules, some name, none⟩
  | rule (name : String) (body : Pattern) (finished : reader.unfinished? = none) :
    Takes line reader (.rule name body) ⟨⟨name, body⟩ :: reader.rules, some name, none⟩

/-- Reading a line succeeds just if the reader takes it. -/
theorem addText_eq_ok_iff {reader next : RulesReader} {line : Nat} {text : String} :
    reader.addText line text = .ok next ↔ Takes line reader (ofText text) next := by
  rw [addText_eq]
  generalize ofText text = kind
  constructor
  · intro added
    cases kind with
    | blank =>
      cases added
      exact .blank
    | label name =>
      cases unfinished : reader.unfinished? with
      | some error => cases (addLine_of_unfinished unfinished line name none).symm.trans added
      | none =>
        cases (addLine_label unfinished line name).symm.trans added
        exact .label name unfinished
    | pattern body =>
      replace added := (addLine_pattern reader line body).symm.trans added
      cases inForce : reader.label with
      | none =>
        rw [inForce] at added
        cases added
      | some name =>
        rw [inForce] at added
        cases added
        exact .pattern body inForce
    | rule name body =>
      cases unfinished : reader.unfinished? with
      | some error => cases (addLine_of_unfinished unfinished line name body).symm.trans added
      | none =>
        cases (addLine_rule unfinished line name body).symm.trans added
        exact .rule name body unfinished
    | bad cause => cases added
  · intro takes
    cases takes with
    | blank => rfl
    | label name finished => exact addLine_label finished line name
    | pattern body inForce =>
      show reader.addLine line ⟨none, some body⟩ = _
      rw [addLine_pattern, inForce]
    | rule name body finished => exact addLine_rule finished line name body

/-! ### What a reader knows -/

/-- A rule as what lines say. -/
def said (rule : Rule) : Option String × Pattern :=
  (some rule.label, rule.pattern)

/-- Whether a reader knows of the lines that it has read the last label, the label that waits for a
pattern, and the rules. -/
structure HasRead (reader : RulesReader) (above : List LineKind) : Prop where
  label : reader.label = lastLabel? above
  pending : ∀ line name, reader.pending = some (line, name) ↔ Waits above line name
  rules : reader.rules.reverse.map said = labelledPatterns above

theorem hasRead_start : start.HasRead [] :=
  ⟨rfl, fun _ _ => ⟨nofun, fun waits => absurd waits not_waits_nil⟩, rfl⟩

theorem HasRead.append {reader next : RulesReader} {above : List LineKind} {kind : LineKind}
    (hasRead : reader.HasRead above) (isLabel : next.label = kind.label?.or reader.label)
    (isPending : ∀ line name, next.pending = some (line, name) ↔
      kind = blank ∧ reader.pending = some (line, name) ∨
        kind = .label name ∧ line = above.length + 1)
    (areRules : next.rules.reverse.map said =
      reader.rules.reverse.map said ++ (kind.pattern?.map (next.label, ·)).toList) :
    next.HasRead (above ++ [kind]) := by
  have sameLabel : next.label = lastLabel? (above ++ [kind]) := by
    rw [isLabel, hasRead.label, lastLabel?_append]
  refine ⟨sameLabel, fun line name => ?_, ?_⟩
  · rw [isPending, hasRead.pending, waits_append_iff]
  · rw [areRules, labelledPatterns_append, ← hasRead.rules, ← sameLabel]

/-! ### Where a reader stops -/

theorem HasRead.unfinished?_eq_some_iff {reader : RulesReader} {above : List LineKind}
    (hasRead : reader.HasRead above) {error : RulesError} :
    reader.unfinished? = some error ↔
      ∃ line name, Waits above line name ∧ error = ⟨line, .missingPattern name⟩ := by
  rw [unfinished?, Option.map_eq_some_iff]
  simp only [Prod.exists, hasRead.pending, eq_comm]

/-- At the end, or at a label, reading stops just if a label still waits. -/
theorem HasRead.stopsAt_iff_unfinished {reader : RulesReader} {above : List LineKind}
    (hasRead : reader.HasRead above) {next : Option LineKind}
    (ends : ∀ kind ∈ next, kind.label?.isSome) {error : RulesError} :
    StopsAt above next error ↔ reader.unfinished? = some error := by
  rw [hasRead.unfinished?_eq_some_iff]
  constructor
  · intro stops
    cases stops with
    | bad cause => exact absurd (ends _ rfl) Bool.false_ne_true
    | unlabelled body => exact absurd (ends _ rfl) Bool.false_ne_true
    | unfinished waits => exact ⟨_, _, waits, rfl⟩
  · rintro ⟨line, name, waits, rfl⟩
    exact .unfinished waits ends

theorem HasRead.stopsAt_pattern_iff {reader : RulesReader} {above : List LineKind}
    (hasRead : reader.HasRead above) {body : Pattern} {error : RulesError} :
    StopsAt above (some (pattern body)) error ↔
      reader.label = none ∧ error = ⟨above.length + 1, .missingLabel⟩ := by
  rw [hasRead.label, lastLabel?_eq_none_iff]
  constructor
  · intro stops
    cases stops with
    | unlabelled body noLabel => exact ⟨noLabel, rfl⟩
    | unfinished waits ends => exact absurd (ends _ rfl) Bool.false_ne_true
  · rintro ⟨noLabel, rfl⟩
    exact .unlabelled body noLabel

/-- Reading a line fails just if reading stops there, and with that error. -/
theorem HasRead.addText_eq_error_iff {reader : RulesReader} {above : List LineKind}
    (hasRead : reader.HasRead above) (text : String) (error : RulesError) :
    reader.addText (above.length + 1) text = .error error ↔
      StopsAt above (some (ofText text)) error := by
  rw [addText_eq]
  cases ofText text with
  | blank =>
    refine iff_of_false nofun fun stops => ?_
    cases stops with
    | unfinished waits ends => exact absurd (ends _ rfl) Bool.false_ne_true
  | label name =>
    rw [hasRead.stopsAt_iff_unfinished (by rintro _ ⟨⟩; rfl)]
    exact addLine_eq_error_iff _ name none
  | pattern body =>
    show reader.addLine _ ⟨none, some body⟩ = _ ↔ _
    rw [hasRead.stopsAt_pattern_iff, addLine_pattern]
    cases reader.label with
    | some name => exact ⟨nofun, nofun⟩
    | none => rw [Except.error.injEq, and_iff_right rfl, eq_comm]
  | rule name body =>
    rw [hasRead.stopsAt_iff_unfinished (by rintro _ ⟨⟩; rfl)]
    exact addLine_eq_error_iff _ name (some body)
  | bad cause =>
    show Except.error _ = _ ↔ _
    rw [Except.error.injEq]
    constructor
    · rintro rfl
      exact .bad cause
    · intro stops
      cases stops with
      | bad => rfl
      | unfinished waits ends => exact absurd (ends _ rfl) Bool.false_ne_true

theorem HasRead.rules_cons {reader : RulesReader} (name : String) (body : Pattern) :
    (⟨name, body⟩ :: reader.rules).reverse.map said =
      reader.rules.reverse.map said ++ [(some name, body)] := by
  rw [List.reverse_cons, List.map_append]
  rfl

/-- A reader that has read a line knows of it. -/
theorem HasRead.addText {reader next : RulesReader} {above : List LineKind}
    (hasRead : reader.HasRead above) {text : String}
    (added : reader.addText (above.length + 1) text = .ok next) :
    next.HasRead (above ++ [ofText text]) := by
  have takes := addText_eq_ok_iff.mp added
  generalize ofText text = kind at takes
  cases takes with
  | blank => exact hasRead.append rfl (by simp) (List.append_nil _).symm
  | label name finished =>
    exact hasRead.append rfl (by simp [eq_comm, and_comm]) (List.append_nil _).symm
  | pattern body inForce => exact hasRead.append inForce.symm (by simp) (rules_cons _ body)
  | rule name body finished => exact hasRead.append rfl (by simp) (rules_cons name body)

theorem HasRead.finish_eq_error_iff {reader : RulesReader} {above : List LineKind}
    (hasRead : reader.HasRead above) (error : RulesError) :
    reader.finish = .error error ↔ StopsAt above none error := by
  rw [hasRead.stopsAt_iff_unfinished fun kind isKind => absurd isKind (Option.not_mem_none kind),
    finish]
  cases reader.unfinished? with
  | some first => rw [Except.error.injEq, Option.some.injEq]
  | none => exact ⟨nofun, nofun⟩

theorem HasRead.rules_of_finish {reader : RulesReader} {above : List LineKind}
    (hasRead : reader.HasRead above) {rules : List Rule} (finished : reader.finish = .ok rules) :
    rules.map said = labelledPatterns above := by
  rw [finish] at finished
  split at finished
  · cases finished
  · cases finished
    exact hasRead.rules

/-! ### All lines -/

/-- The rules that a reader makes of lines of text and of what it has read before. -/
def readOn (reader : RulesReader) (line : Nat) (texts : List String) :
    Except RulesError (List Rule) := do
  let last ← reader.addLines line texts
  last.finish

theorem readOn_cons (reader : RulesReader) (line : Nat) (text : String) (texts : List String) :
    reader.readOn line (text :: texts) =
      reader.addText line text >>= fun next => next.readOn (line + 1) texts := by
  rw [readOn, addLines]
  cases reader.addText line text <;> rfl

end RulesReader

open RulesReader

/-- Whether a place is the first of the lines, or the end, where reading stops, and the error. -/
def LineKind.StopsFirst (lines : List LineKind) (place : Nat) (error : RulesError) : Prop :=
  StopsAt (lines.take place) lines[place]? error ∧
    ∀ earlier < place, ∀ other, ¬StopsAt (lines.take earlier) lines[earlier]? other

theorem LineKind.exists_stopsFirst_iff {lines : List LineKind} {place : Nat} {first : RulesError}
    (unstopped : ∀ earlier < place, ∀ other, ¬StopsAt (lines.take earlier) lines[earlier]? other)
    (only : ∀ other, first = other ↔ StopsAt (lines.take place) lines[place]? other)
    (error : RulesError) : first = error ↔ ∃ place, StopsFirst lines place error := by
  constructor
  · rintro rfl
    exact ⟨place, (only first).mp rfl, unstopped⟩
  · rintro ⟨other, stops, isFirst⟩
    rcases Nat.lt_trichotomy other place with before | rfl | after
    · exact absurd stops (unstopped other before error)
    · exact (only error).mpr stops
    · exact absurd ((only first).mp rfl) (isFirst place after first)

/-- Where reading has not stopped before, it fails just if it stops at a later line or the end, and
with the error of the first such place. -/
theorem RulesReader.HasRead.readOn_eq_error_iff {texts : List String} {reader : RulesReader}
    {above lines : List LineKind} (hasRead : reader.HasRead above)
    (isLines : lines = above ++ texts.map ofText)
    (unstopped : ∀ place < above.length, ∀ other,
      ¬StopsAt (lines.take place) lines[place]? other) (error : RulesError) :
    reader.readOn (above.length + 1) texts = .error error ↔
      ∃ place, StopsFirst lines place error := by
  induction texts generalizing reader above with
  | nil =>
    rw [List.map_nil, List.append_nil] at isLines
    subst isLines
    show reader.finish = .error error ↔ _
    rw [hasRead.finish_eq_error_iff]
    constructor
    · intro stops
      refine ⟨lines.length, ?_, unstopped⟩
      rwa [List.take_length, List.getElem?_eq_none (Nat.le_refl _)]
    · rintro ⟨place, stops, _⟩
      rcases Nat.lt_or_ge place lines.length with within | atEnd
      · exact absurd stops (unstopped place within error)
      · rwa [List.take_of_length_le atEnd, List.getElem?_eq_none atEnd] at stops
  | cons text texts inductionHypothesis =>
    have isAbove : lines.take above.length = above := by rw [isLines, List.take_left]
    have isNext : lines[above.length]? = some (ofText text) := by
      rw [isLines, List.getElem?_append_right (Nat.le_refl _), Nat.sub_self, List.map_cons,
        List.getElem?_cons_zero]
    rw [readOn_cons]
    cases added : reader.addText (above.length + 1) text with
    | error first =>
      show Except.error first = _ ↔ _
      rw [Except.error.injEq]
      refine exists_stopsFirst_iff unstopped (fun other => ?_) error
      rw [isAbove, isNext, ← hasRead.addText_eq_error_iff, added, Except.error.injEq]
    | ok next =>
      have ofRest := inductionHypothesis (hasRead.addText added)
        (by rw [isLines, List.map_cons, List.append_assoc, List.singleton_append])
      rw [List.length_append, List.length_singleton] at ofRest
      refine ofRest fun place within other => ?_
      rcases Nat.lt_succ_iff_lt_or_eq.mp within with before | rfl
      · exact unstopped place before other
      · rw [isAbove, isNext, ← hasRead.addText_eq_error_iff, added]
        exact nofun

theorem RulesReader.HasRead.rules_of_readOn {texts : List String} {reader : RulesReader}
    {above : List LineKind} (hasRead : reader.HasRead above) {rules : List Rule}
    (done : reader.readOn (above.length + 1) texts = .ok rules) :
    rules.map said = labelledPatterns (above ++ texts.map ofText) := by
  induction texts generalizing reader above with
  | nil =>
    rw [List.map_nil, List.append_nil]
    exact hasRead.rules_of_finish done
  | cons text texts inductionHypothesis =>
    rw [readOn_cons] at done
    obtain ⟨next, added, doneLater⟩ := Outcome.bind_eq_ok_iff.mp done
    have ofRest := inductionHypothesis (hasRead.addText added)
    rw [List.length_append, List.length_singleton, List.append_assoc, List.singleton_append]
      at ofRest
    exact ofRest doneLater

/-! ### Lines in order -/

namespace LineKind

/-- Lines begin with some blank ones, after which a line follows that is not blank, or the end. -/
theorem exists_blanks (lines : List LineKind) :
    ∃ blanks rest, lines = blanks ++ rest ∧ (∀ kind ∈ blanks, kind = blank) ∧
      blank ∉ rest.head? := by
  induction lines with
  | nil => exact ⟨[], [], rfl, List.forall_mem_nil _, nofun⟩
  | cons kind lines inductionHypothesis =>
    cases kind with
    | blank =>
      obtain ⟨blanks, rest, rfl, areBlank, ends⟩ := inductionHypothesis
      exact ⟨blank :: blanks, rest, rfl, List.forall_mem_cons.mpr ⟨rfl, areBlank⟩, ends⟩
    | _ => exact ⟨[], _ :: lines, rfl, List.forall_mem_nil _, nofun⟩

/-- What follows the first blank lines is what follows them however the lines are parted. -/
theorem eq_of_blanks {blanks others rest later : List LineKind}
    (same : blanks ++ rest = others ++ later) (areBlank : ∀ kind ∈ blanks, kind = blank)
    (othersBlank : ∀ kind ∈ others, kind = blank) (ends : blank ∉ rest.head?)
    (othersEnd : blank ∉ later.head?) : rest = later := by
  induction blanks generalizing others with
  | nil =>
    cases others with
    | nil => exact same
    | cons kind others =>
      rw [List.nil_append] at same
      rw [same, othersBlank kind List.mem_cons_self] at ends
      exact absurd rfl ends
  | cons kind blanks inductionHypothesis =>
    cases others with
    | nil =>
      rw [List.nil_append] at same
      rw [← same, areBlank kind List.mem_cons_self] at othersEnd
      exact absurd rfl othersEnd
    | cons other others =>
      exact inductionHypothesis (List.cons.inj same).2 (List.forall_mem_cons.mp areBlank).2
        (List.forall_mem_cons.mp othersBlank).2

/-- Reading never stops in lines that are in order. -/
theorem AreInOrder.not_stopsAt {lines : List LineKind} (inOrder : AreInOrder lines) (place : Nat)
    (error : RulesError) : ¬StopsAt (lines.take place) lines[place]? error := by
  intro stops
  have parted : lines = lines.take place ++ lines.drop place := (List.take_append_drop _ _).symm
  rw [← List.head?_drop] at stops
  generalize lines.drop place = below at parted stops
  generalize lines.take place = above at parted stops
  subst parted
  generalize isNext : below.head? = next at stops
  cases stops with
  | bad cause =>
    exact inOrder.noneBad cause (List.mem_append_right above (List.mem_of_head? isNext))
  | unlabelled body noLabel =>
    obtain ⟨rest, rfl⟩ := List.head?_eq_some_iff.mp isNext
    obtain ⟨kind, member, isLabelled⟩ := inOrder.labelled above body rest rfl
    rw [noLabel kind member] at isLabelled
    cases isLabelled
  | unfinished waits ends =>
    obtain ⟨before, blanks, rfl, _, areBlank⟩ := waits
    obtain ⟨others, body, rest, same, othersBlank⟩ :=
      inOrder.finished before _ (blanks ++ below) (List.append_assoc _ _ _)
    have notBlank : blank ∉ below.head? := fun isBlank =>
      absurd (ends blank (isNext ▸ isBlank)) Bool.false_ne_true
    obtain rfl := eq_of_blanks same areBlank othersBlank notBlank nofun
    exact absurd (ends _ isNext.symm) Bool.false_ne_true

/-- Lines in which reading never stops are in order. -/
theorem areInOrder_of_not_stopsAt {lines : List LineKind}
    (unstopped : ∀ place error, ¬StopsAt (lines.take place) lines[place]? error) :
    AreInOrder lines := by
  have unstoppedAfter (above : List LineKind) (below : List LineKind)
      (parted : lines = above ++ below) (error : RulesError) : ¬StopsAt above below.head? error := by
    have stops := unstopped above.length error
    rwa [parted, List.take_left, List.getElem?_append_right (Nat.le_refl _), Nat.sub_self,
      ← List.head?_eq_getElem?] at stops
  refine ⟨fun cause member => ?_, fun before body after parted => ?_,
    fun before name after parted => ?_⟩
  · obtain ⟨before, after, parted⟩ := List.append_of_mem member
    exact unstoppedAfter before _ parted _ (.bad cause)
  · by_contra noLabel
    refine unstoppedAfter before _ parted _ (.unlabelled body fun kind member => ?_)
    exact Option.not_isSome_iff_eq_none.mp fun isLabelled => noLabel ⟨kind, member, isLabelled⟩
  · obtain ⟨blanks, rest, rfl, areBlank, ends⟩ := exists_blanks after
    have waits : Waits (before ++ label name :: blanks) (before.length + 1) name :=
      ⟨before, blanks, rfl, rfl, areBlank⟩
    have isParted : lines = (before ++ label name :: blanks) ++ rest := by
      rw [parted, List.append_assoc, List.cons_append]
    have notStopped := unstoppedAfter _ rest isParted
    cases rest with
    | nil => exact absurd (.unfinished waits nofun) (notStopped _)
    | cons kind rest =>
      cases kind with
      | blank => exact absurd rfl ends
      | label other => exact absurd (.unfinished waits (by rintro _ ⟨⟩; rfl)) (notStopped _)
      | pattern body => exact ⟨blanks, body, rest, rfl, areBlank⟩
      | rule other body => exact absurd (.unfinished waits (by rintro _ ⟨⟩; rfl)) (notStopped _)
      | bad cause => exact absurd (.bad cause) (notStopped _)

end LineKind

/-- Reading the rules of a text succeeds just if its lines are in order. The rules are then the
patterns in the order of their lines, each with the label on its line or else the last one above it.
Otherwise reading stops at the first place where something is wrong with the lines up to there, and
the error names the number of the bad or unlabelled line, or of the label that still waits. -/
theorem Rule.allOfText_follows_lines (text : String) :
    let lines := (Text.lines text).map LineKind.ofText
    ((∃ rules, Rule.allOfText text = .ok rules) ↔ AreInOrder lines) ∧
    (∀ rules, Rule.allOfText text = .ok rules →
      rules.map (fun rule => (some rule.label, rule.pattern)) = labelledPatterns lines) ∧
    ∀ error, Rule.allOfText text = .error error ↔ ∃ place, StopsFirst lines place error := by
  intro lines
  have fails (error : RulesError) : Rule.allOfText text = .error error ↔
      ∃ place, StopsFirst lines place error :=
    hasRead_start.readOn_eq_error_iff rfl (fun _ before => absurd before (Nat.not_lt_zero _)) error
  refine ⟨⟨?_, fun inOrder => ?_⟩, fun rules done => hasRead_start.rules_of_readOn done, fails⟩
  · rintro ⟨rules, done⟩
    refine areInOrder_of_not_stopsAt fun place => ?_
    induction place using Nat.strongRecOn with
    | ind place unstopped =>
      intro error stops
      have failed := (fails error).mpr ⟨place, stops, unstopped⟩
      cases done.symm.trans failed
  · cases outcome : Rule.allOfText text with
    | ok rules => exact ⟨rules, rfl⟩
    | error error =>
      obtain ⟨place, stops, _⟩ := (fails error).mp outcome
      exact absurd stops (inOrder.not_stopsAt place error)

end ShallowParse
