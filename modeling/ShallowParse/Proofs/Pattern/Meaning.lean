/-
This file proves that reading a written pattern again keeps whatever it means, as
long as that is made up of what its parts mean. There is one exception. A meaning
may mind that an alternation gives up its alternatives to the alternation around
it, and is then kept if this happens only where it does not mind.
-/

import ShallowParse.Proofs.Notation.Rereading

namespace ShallowParse

namespace Pattern

/-! ### Alternations inside alternations -/

/-- The alternatives that a pattern stands for in an alternation around it. An alternation that is
no class stands for its own ones. -/
def ownAlternatives : Pattern → List Pattern
  | alternation alternatives =>
    if (alternation alternatives).isClass then [alternation alternatives] else alternatives
  | pattern => [pattern]

/-- Whether a pattern either stands for itself in an alternation around it, or for alternatives of
some kind. -/
def standsFor (kind : List Pattern → Bool) : Pattern → Bool
  | alternation alternatives => (alternation alternatives).isClass || kind alternatives
  | _ => true

mutual

/-- Whether every alternation directly inside an alternation is a class or has alternatives of some
kind. -/
def nestedAre (kind : List Pattern → Bool) : Pattern → Bool
  | exactly _ | startingWith _ => true
  | alternation alternatives => nestedAreInAny kind alternatives
  | repetition body _ _ => nestedAre kind body
  | sequence items => nestedAreInOrder kind items

def nestedAreInAny (kind : List Pattern → Bool) : List Pattern → Bool
  | [] => true
  | pattern :: patterns =>
    standsFor kind pattern && nestedAre kind pattern && nestedAreInAny kind patterns

def nestedAreInOrder (kind : List Pattern → Bool) : List Pattern → Bool
  | [] => true
  | pattern :: patterns => nestedAre kind pattern && nestedAreInOrder kind patterns

end

mutual

theorem nestedAre_true : (pattern : Pattern) → pattern.nestedAre (fun _ => true) = true
  | exactly _ | startingWith _ => rfl
  | alternation alternatives => nestedAreInAny_true alternatives
  | repetition body _ _ => nestedAre_true body
  | sequence items => nestedAreInOrder_true items

theorem nestedAreInAny_true : (patterns : List Pattern) →
    nestedAreInAny (fun _ => true) patterns = true
  | [] => rfl
  | pattern :: patterns => by
    have stands : pattern.standsFor (fun _ => true) = true := by
      cases pattern <;> simp [standsFor]
    rw [nestedAreInAny, stands, nestedAre_true pattern, nestedAreInAny_true patterns]
    rfl

theorem nestedAreInOrder_true : (patterns : List Pattern) →
    nestedAreInOrder (fun _ => true) patterns = true
  | [] => rfl
  | pattern :: patterns => by
    rw [nestedAreInOrder, nestedAre_true pattern, nestedAreInOrder_true patterns]
    rfl

end

end Pattern

/-! ### Chains -/

/-- A way to join values one after the other. -/
structure Chain (Value : Type) where
  join : Value → Value → Value
  nothing : Value
  join_assoc : ∀ first second third, join (join first second) third = join first (join second third)
  nothing_join : ∀ value, join nothing value = value
  join_nothing : ∀ value, join value nothing = value

namespace Chain

variable {Value : Type} (chain : Chain Value)

/-- All values of a list one after the other. -/
def all (values : List Value) : Value :=
  values.foldr chain.join chain.nothing

theorem all_cons (value : Value) (values : List Value) :
    chain.all (value :: values) = chain.join value (chain.all values) := rfl

theorem all_singleton (value : Value) : chain.all [value] = value :=
  chain.join_nothing value

theorem all_append (before after : List Value) :
    chain.all (before ++ after) = chain.join (chain.all before) (chain.all after) := by
  induction before with
  | nil => exact (chain.nothing_join _).symm
  | cons value before inductionHypothesis =>
    rw [List.cons_append, all_cons, inductionHypothesis, all_cons, join_assoc]

/-- Values may be joined in several steps. -/
theorem all_all (before inner after : List Value) :
    chain.all (before ++ chain.all inner :: after) = chain.all (before ++ inner ++ after) := by
  rw [all_append, all_cons, List.append_assoc, all_append, all_append]

end Chain

/-! ### Meanings -/

/-- A meaning of patterns that is made up of the meanings of their parts. -/
structure Meaning (Value : Type) where
  of : Pattern → Value
  /-- The meaning of alternatives. -/
  any : List Value → Value
  /-- The meaning of items one after the other. -/
  row : Chain Value
  /-- The meaning of copies between bounds. -/
  copies : Value → Nat → Option Nat → Value
  /-- Whether these alternatives may be given to an alternation around theirs. -/
  joins : List Pattern → Bool
  of_alternation : ∀ alternatives, of (.alternation alternatives) = any (alternatives.map of)
  of_repetition : ∀ body least most, of (.repetition body least most) = copies (of body) least most
  of_sequence : ∀ items, of (.sequence items) = row.all (items.map of)
  any_singleton : ∀ pattern, any [of pattern] = of pattern
  any_any : ∀ before alternatives after, joins alternatives = true →
    any (before ++ any (alternatives.map of) :: after) = any (before ++ alternatives.map of ++ after)

namespace Meaning

open Pattern

variable {Value : Type}

/-- A meaning that takes alternatives one after the other, so that it does not mind in which
alternation they stand. -/
def ofChains (of : Pattern → Value) (any row : Chain Value)
    (copies : Value → Nat → Option Nat → Value)
    (of_alternation : ∀ alternatives, of (alternation alternatives) = any.all (alternatives.map of))
    (of_repetition : ∀ body least most,
      of (repetition body least most) = copies (of body) least most)
    (of_sequence : ∀ items, of (sequence items) = row.all (items.map of)) : Meaning Value where
  of := of
  any := any.all
  row := row
  copies := copies
  joins _ := true
  of_alternation := of_alternation
  of_repetition := of_repetition
  of_sequence := of_sequence
  any_singleton _ := any.all_singleton _
  any_any before _ after _ := any.all_all before _ after

variable (meaning : Meaning Value)

theorem of_anyOf (alternatives : List Pattern) :
    meaning.of (anyOf alternatives) = meaning.any (alternatives.map meaning.of) := by
  fun_cases anyOf alternatives with
  | case1 alternative => exact (meaning.any_singleton alternative).symm
  | case2 => exact meaning.of_alternation _

theorem of_row (items : List Pattern) :
    meaning.of (Pattern.row items) = meaning.row.all (items.map meaning.of) := by
  fun_cases Pattern.row items with
  | case1 item => exact (meaning.row.all_singleton _).symm
  | case2 => exact meaning.of_sequence _

/-- A pattern means what its items mean in a sequence. -/
theorem all_items (pattern : Pattern) :
    meaning.row.all (pattern.items.map meaning.of) = meaning.of pattern := by
  fun_cases Pattern.items pattern with
  | case1 inner => exact (meaning.of_sequence inner).symm
  | case2 => exact meaning.row.all_singleton _

/-- Whether values mean the same as others among any alternatives. -/
def SameAmong (values others : List Value) : Prop :=
  ∀ before after, meaning.any (before ++ values ++ after) = meaning.any (before ++ others ++ after)

variable {meaning} in
theorem SameAmong.trans {values others more : List Value} (first : meaning.SameAmong values others)
    (second : meaning.SameAmong others more) : meaning.SameAmong values more :=
  fun before after => (first before after).trans (second before after)

variable {meaning} in
theorem SameAmong.append {first first' second second' : List Value}
    (ofFirst : meaning.SameAmong first first') (ofSecond : meaning.SameAmong second second') :
    meaning.SameAmong (first ++ second) (first' ++ second') := by
  intro before after
  have inFirst := ofFirst before (second ++ after)
  have inSecond := ofSecond (before ++ first') after
  simp only [List.append_assoc] at inFirst inSecond ⊢
  exact inFirst.trans inSecond

theorem sameAmong_ownAlternatives {pattern : Pattern}
    (stands : pattern.standsFor meaning.joins = true) :
    meaning.SameAmong (pattern.ownAlternatives.map meaning.of) [meaning.of pattern] := by
  intro before after
  cases pattern with
  | alternation alternatives =>
    rw [ownAlternatives]
    split
    · rfl
    · rename_i noClass
      rw [standsFor, Bool.or_eq_true, or_iff_right noClass] at stands
      rw [List.append_assoc before [_], List.singleton_append, of_alternation,
        meaning.any_any before alternatives after stands]
  | _ => rfl

/-- An alternation means what its alternatives mean. -/
theorem any_ownAlternatives (pattern : Pattern) :
    meaning.any (pattern.ownAlternatives.map meaning.of) = meaning.of pattern := by
  cases pattern with
  | alternation alternatives =>
    rw [ownAlternatives]
    split
    · exact meaning.any_singleton _
    · exact (meaning.of_alternation alternatives).symm
  | _ => exact meaning.any_singleton _

/-- A pattern whose alternatives mean the same when they are read again means the same. -/
theorem of_reread_of_sameAmong {pattern : Pattern}
    (same : meaning.SameAmong (pattern.rereadAlternatives.map meaning.of)
      (pattern.ownAlternatives.map meaning.of)) : meaning.of pattern.reread = meaning.of pattern := by
  have alone := same [] []
  rw [List.nil_append, List.append_nil, List.nil_append, List.append_nil] at alone
  rw [reread, of_anyOf, alone, any_ownAlternatives]

mutual

theorem sameAmong_reread : (pattern : Pattern) → pattern.nestedAre meaning.joins = true →
    meaning.SameAmong (pattern.rereadAlternatives.map meaning.of)
      (pattern.ownAlternatives.map meaning.of)
  | .exactly _, _ => fun _ _ => rfl
  | .startingWith _, _ => fun _ _ => rfl
  | .alternation alternatives, nested => by
    rw [rereadAlternatives, ownAlternatives]
    split
    · rw [List.map_singleton, List.map_singleton, of_anyOf, of_alternation]
      exact fun _ _ => rfl
    · exact sameAmong_rereadAny alternatives nested
  | .repetition body least most, nested => by
    have sameBody : meaning.of (anyOf body.rereadAlternatives) = meaning.of body :=
      meaning.of_reread_of_sameAmong (sameAmong_reread body nested)
    have isOwn : ownAlternatives (.repetition body least most) =
        [.repetition body least most] := rfl
    rw [rereadAlternatives, isOwn, List.map_singleton, List.map_singleton, of_repetition,
      of_repetition, sameBody]
    exact fun _ _ => rfl
  | .sequence items, nested => by
    have isOwn : ownAlternatives (.sequence items) = [.sequence items] := rfl
    rw [rereadAlternatives, isOwn, List.map_singleton, List.map_singleton, of_row, of_sequence,
      all_rereadItems items nested]
    exact fun _ _ => rfl

theorem sameAmong_rereadAny : (patterns : List Pattern) →
    nestedAreInAny meaning.joins patterns = true →
    meaning.SameAmong ((rereadAny patterns).map meaning.of) (patterns.map meaning.of)
  | [], _ => fun _ _ => rfl
  | pattern :: patterns, nested => by
    rw [nestedAreInAny, Bool.and_eq_true_iff, Bool.and_eq_true_iff] at nested
    obtain ⟨⟨stands, nestedFirst⟩, nestedRest⟩ := nested
    have first := sameAmong_reread pattern nestedFirst
    have rest := sameAmong_rereadAny patterns nestedRest
    rw [rereadAny, List.map_append]
    exact (first.trans (meaning.sameAmong_ownAlternatives stands)).append rest

theorem all_rereadItems : (patterns : List Pattern) →
    nestedAreInOrder meaning.joins patterns = true →
    meaning.row.all ((rereadItems patterns).map meaning.of) =
      meaning.row.all (patterns.map meaning.of)
  | [], _ => rfl
  | pattern :: patterns, nested => by
    rw [nestedAreInOrder, Bool.and_eq_true_iff] at nested
    have first : meaning.of (anyOf pattern.rereadAlternatives) = meaning.of pattern :=
      meaning.of_reread_of_sameAmong (sameAmong_reread pattern nested.1)
    rw [rereadItems, List.map_append, Chain.all_append, all_items, first,
      all_rereadItems patterns nested.2]
    rfl

end

/-- A pattern read again means the same. -/
theorem of_reread {pattern : Pattern} (nested : pattern.nestedAre meaning.joins = true) :
    meaning.of pattern.reread = meaning.of pattern :=
  meaning.of_reread_of_sameAmong (meaning.sameAmong_reread pattern nested)

end Meaning

end ShallowParse
