/-
This file relates ways to match a text to ways to match the symbols that the text
is written for. The former follow the latter if on the text of any symbols they
leave what the symbols left are written as. This is kept when matches are put one
after the other, are alternatives or are repeated.
-/

import ShallowParse.Proofs.Matching.SameOrder
import ShallowParse.Proofs.Symbols.Encoding

namespace ShallowParse

open SymbolText

/-- More symbols are written as more characters. -/
theorem SymbolText.length_written_lt_iff {rest symbols : List String} (suffix : rest <:+ symbols) :
    (written rest).length < (written symbols).length ↔ rest.length < symbols.length := by
  obtain ⟨before, rfl⟩ := suffix
  rw [written_append, List.length_append, List.length_append]
  cases before with
  | nil => simp
  | cons symbol others =>
    rw [written_cons, Symbol.bracketed_eq]
    simp only [List.length_append, List.length_cons]
    constructor <;> intro <;> omega

namespace Ways

/-- On the text of any symbols the ways compare with those for the symbols. -/
def Follows (comparison : Comparison (List Char)) (chars : Ways Char) (symbols : Ways String) :
    Prop :=
  ∀ items, comparison.holds (chars (written items)) ((symbols items).map written)

namespace Follows

variable {comparison : Comparison (List Char)} {chars chars' : Ways Char}
  {symbols symbols' : Ways String}

theorem nothing : Follows comparison (fun text => [text]) fun items => [items] :=
  fun _ => comparison.refl _

/-- Going on follows from any symbols left if it does so from each. -/
theorem goOn {items : List String} {goOn : List Char → List (List Char)}
    {goOn' : List String → List (List String)} (follows : Follows comparison chars symbols)
    (followsOn : ∀ rest ∈ symbols items,
      comparison.holds (goOn (written rest)) ((goOn' rest).map written)) :
    comparison.holds ((chars (written items)).flatMap goOn)
      (((symbols items).flatMap goOn').map written) := by
  refine comparison.trans (comparison.flatMap (follows items) fun _ _ => comparison.refl _) ?_
  rw [List.flatMap_map, List.map_flatMap]
  exact comparison.flatMap_congr followsOn

theorem inOrder (first : Follows comparison chars symbols)
    (second : Follows comparison chars' symbols') :
    Follows comparison (fun text => (chars text).flatMap chars')
      fun items => (symbols items).flatMap symbols' :=
  fun _ => first.goOn fun rest _ => second rest

theorem either (first : Follows comparison chars symbols)
    (second : Follows comparison chars' symbols') :
    Follows comparison (fun text => chars text ++ chars' text)
      fun items => symbols items ++ symbols' items := by
  intro items
  rw [List.map_append]
  exact comparison.append (first items) (second items)

theorem copies (follows : Follows comparison chars symbols) (count : Nat) :
    Follows comparison (Ways.copies chars count) (Ways.copies symbols count) := by
  induction count with
  | zero => exact nothing
  | succ count inductionHypothesis => exact follows.inOrder inductionHypothesis

/-- One more copy follows if what comes after copies that take something does. -/
theorem oneMore {items : List String} {goOn : List Char → List (List Char)}
    {goOn' : List String → List (List String)} (follows : Follows comparison chars symbols)
    (leaves : LeavesSuffix symbols)
    (followsOn : ∀ rest, rest.length < items.length →
      comparison.holds (goOn (written rest)) ((goOn' rest).map written)) :
    comparison.holds
      ((chars (written items)).flatMap
        (fun rest => if rest.length < (written items).length then goOn rest else [rest]) ++
          [written items])
      (((symbols items).flatMap
        (fun rest => if rest.length < items.length then goOn' rest else [rest]) ++
          [items]).map written) := by
  rw [List.map_append]
  refine comparison.append (follows.goOn fun rest member => ?_) (comparison.refl _)
  by_cases shorter : rest.length < items.length
  · rw [if_pos shorter, if_pos ((length_written_lt_iff (leaves items rest member)).mpr shorter)]
    exact followsOn rest shorter
  · rw [if_neg shorter, if_neg fun isShorter =>
      shorter ((length_written_lt_iff (leaves items rest member)).mp isShorter)]
    exact comparison.refl _

theorem upTo (follows : Follows comparison chars symbols) (leaves : LeavesSuffix symbols)
    (more : Nat) : Follows comparison (Ways.upTo chars more) (Ways.upTo symbols more) := by
  induction more with
  | zero => exact nothing
  | succ more inductionHypothesis =>
    exact fun items => follows.oneMore leaves fun rest _ => inductionHypothesis rest

theorem endless (follows : Follows comparison chars symbols) (leaves : LeavesSuffix symbols) :
    Follows comparison (Ways.endless chars) (Ways.endless symbols) := by
  intro items
  induction items using Ways.endless.induct with
  | case1 items inductionHypothesis =>
    rw [endless_eq, endless_eq]
    refine follows.oneMore leaves fun rest shorter => ?_
    exact inductionHypothesis rest shorter

theorem repeated (follows : Follows comparison chars symbols) (leaves : LeavesSuffix symbols)
    (least : Nat) (most : Option Nat) :
    Follows comparison (Ways.repeated chars least most) (Ways.repeated symbols least most) := by
  refine (follows.copies least).inOrder ?_
  cases most with
  | none => exact follows.endless leaves
  | some most => exact follows.upTo leaves _

/-- Ways that compare with ways that follow the symbols follow them. -/
theorem of_holds (follows : Follows comparison chars symbols)
    (same : ∀ items, comparison.holds (chars' (written items)) (chars (written items))) :
    Follows comparison chars' symbols := fun items =>
  comparison.trans (same items) (follows items)

end Follows

end Ways

end ShallowParse
