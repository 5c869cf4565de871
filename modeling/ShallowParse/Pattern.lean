/-
This file defines patterns: descriptions of a run of consecutive symbols. A
symbol is the tag of a word or the label of a phrase. The leaves test one
symbol, the other patterns combine patterns as a regular expression does.

Besides the type and its collapsing constructors it holds the three questions a
grammar asks before it accepts a rule: the fewest symbols a match takes, the
symbols a pattern names, and the first fault in the way it is built.
-/

import ShallowParse.Text.Sorted

namespace ShallowParse

inductive Pattern where
  /-- One symbol equal to the tag. -/
  | exactly (tag : String)
  /-- One symbol that begins with the stem. -/
  | startingWith (stem : String)
  /-- The first alternative that lets the whole pattern match. -/
  | alternation (alternatives : List Pattern)
  /-- As many copies of the body as possible within the bounds; `most` is `none` without a bound. -/
  | repetition (body : Pattern) (least : Nat) (most : Option Nat)
  /-- The items one after the other. -/
  | sequence (items : List Pattern)
deriving Inhabited

namespace Pattern

/-! ### Equality -/

mutual

/-- Equality of patterns, item by item. -/
def same : Pattern → Pattern → Bool
  | exactly left, exactly right => left == right
  | startingWith left, startingWith right => left == right
  | alternation left, alternation right => sameAll left right
  | repetition left least most, repetition right least' most' =>
    least == least' && most == most' && same left right
  | sequence left, sequence right => sameAll left right
  | _, _ => false

def sameAll : List Pattern → List Pattern → Bool
  | [], [] => true
  | left :: lefts, right :: rights => same left right && sameAll lefts rights
  | _, _ => false

end

mutual

theorem eq_of_same : (left right : Pattern) → same left right = true → left = right
  | exactly _, right, equal => by cases right <;> simp_all [same]
  | startingWith _, right, equal => by cases right <;> simp_all [same]
  | alternation lefts, right, equal => by
    cases right <;> simp [same] at equal
    rw [eq_of_sameAll _ _ equal]
  | repetition body least most, right, equal => by
    cases right <;> simp [same] at equal
    rw [eq_of_same _ _ equal.2, equal.1.1, equal.1.2]
  | sequence lefts, right, equal => by
    cases right <;> simp [same] at equal
    rw [eq_of_sameAll _ _ equal]

theorem eq_of_sameAll : (lefts rights : List Pattern) → sameAll lefts rights = true →
    lefts = rights
  | [], rights, equal => by cases rights <;> simp_all [sameAll]
  | left :: lefts, rights, equal => by
    cases rights <;> simp [sameAll] at equal
    rw [eq_of_same _ _ equal.1, eq_of_sameAll _ _ equal.2]

end

mutual

theorem same_self : (pattern : Pattern) → same pattern pattern = true
  | exactly _ => by simp [same]
  | startingWith _ => by simp [same]
  | alternation alternatives => by simp [same, sameAll_self alternatives]
  | repetition body _ _ => by simp [same, same_self body]
  | sequence items => by simp [same, sameAll_self items]

theorem sameAll_self : (patterns : List Pattern) → sameAll patterns patterns = true
  | [] => rfl
  | pattern :: patterns => by simp [sameAll, same_self pattern, sameAll_self patterns]

end

theorem same_iff {left right : Pattern} : same left right = true ↔ left = right :=
  ⟨eq_of_same left right, fun equal => equal ▸ same_self left⟩

instance : DecidableEq Pattern := fun _ _ => decidable_of_iff _ same_iff

/-! ### Collapsing constructors -/

/-- The alternation of the given patterns; of one pattern it is that pattern. -/
def anyOf : List Pattern → Pattern
  | [alternative] => alternative
  | alternatives => alternation alternatives

/-- The items a pattern contributes to a sequence: a sequence contributes its own. -/
def items : Pattern → List Pattern
  | sequence inner => inner
  | item => [item]

/-- The patterns one after the other. The items of a sequence among them take its place, and a
single item is returned as it is. -/
def inOrder (patterns : List Pattern) : Pattern :=
  match patterns.flatMap items with
  | [item] => item
  | items => sequence items

def optional (body : Pattern) : Pattern :=
  repetition body 0 (some 1)

def zeroOrMore (body : Pattern) : Pattern :=
  repetition body 0 none

def oneOrMore (body : Pattern) : Pattern :=
  repetition body 1 none

/-! ### The shortest match -/

/-- The largest length that is told apart from longer ones. -/
def lengthLimit : Nat := Nat.pow 2 64 - 1

mutual

/-- The fewest symbols a match takes, counted no further than `lengthLimit`, or `none` where nothing
can match. -/
def minLength : Pattern → Option Nat
  | exactly _ | startingWith _ => some 1
  | alternation alternatives => minLengthOfAny alternatives
  | repetition body least _ =>
    if least = 0 then some 0 else (minLength body).map fun each => min (each * least) lengthLimit
  | sequence items => minLengthAfter 0 items

def minLengthOfAny : List Pattern → Option Nat
  | [] => none
  | alternative :: others =>
    match minLength alternative, minLengthOfAny others with
    | some left, some right => some (min left right)
    | some left, none => some left
    | none, right => right

/-- The fewest symbols that items take one after the other, with those counted before them. -/
def minLengthAfter (before : Nat) : List Pattern → Option Nat
  | [] => some before
  | item :: others =>
    (minLength item).bind fun length => minLengthAfter (min (before + length) lengthLimit) others

end

/-- Whether a match may take no symbol. -/
def isNullable (pattern : Pattern) : Bool :=
  minLength pattern == some 0

/-! ### The symbols named -/

mutual

/-- The tags that are named in full, in the order in which they stand. -/
def namedTags : Pattern → List String
  | exactly tag => [tag]
  | startingWith _ => []
  | alternation alternatives => namedTagsOfAll alternatives
  | repetition body _ _ => namedTags body
  | sequence items => namedTagsOfAll items

def namedTagsOfAll : List Pattern → List String
  | [] => []
  | pattern :: patterns => namedTags pattern ++ namedTagsOfAll patterns

end

/-- The tags that are named in full, each once and in increasing order. -/
def symbols (pattern : Pattern) : List String :=
  Text.sorted (namedTags pattern)

/-! ### Faults -/

/-- What makes a pattern unfit for a rule. -/
inductive Fault where
  | emptyTag
  | noAlternatives
  | crossedBounds (least most : Nat)
  | matchesOnlyNothing
deriving DecidableEq

def Fault.message : Fault → String
  | emptyTag => "empty tag in exact match"
  | noAlternatives => "alternation with no alternatives"
  | crossedBounds least most =>
    s!"repetition upper bound {most} is below lower bound {least}"
  | matchesOnlyNothing => "repetition can only match nothing"

/-- The fault in the bounds of a repetition. -/
def boundsFault? (least : Nat) : Option Nat → Option Fault
  | none => none
  | some most =>
    if most < least then some (.crossedBounds least most)
    else if most = 0 then some .matchesOnlyNothing
    else none

mutual

/-- The first fault, the bounds of a repetition before its body. -/
def fault? : Pattern → Option Fault
  | exactly tag => if tag.isEmpty then some .emptyTag else none
  | startingWith _ => none
  | alternation alternatives =>
    if alternatives.isEmpty then some .noAlternatives else faultOfAny? alternatives
  | repetition body least most => (boundsFault? least most).or (fault? body)
  | sequence items => faultOfAny? items

def faultOfAny? : List Pattern → Option Fault
  | [] => none
  | pattern :: patterns => (fault? pattern).or (faultOfAny? patterns)

end

end Pattern

end ShallowParse
