/-
This file proves that a carriage return at the end of a JSON text does not change its
lexemes. Within a string it is no better than the end of the text, since neither can
stand there, and no name or number has one.
-/

import ShallowParse.Json.Reader

namespace ShallowParse.JsonLexeme

/-! ### Strings -/

/-- Where a list with one more item at its end has an item, this is the one at the end or the list
has it there as well. -/
theorem eq_or_exists_of_append_singleton {Item : Type} (front : List Item)
    {items others : List Item} {item last : Item}
    (same : items ++ [last] = front ++ item :: others) :
    item = last ∨ ∃ before, items = front ++ item :: before := by
  rcases List.eq_nil_or_concat others with rfl | ⟨before, final, rfl⟩
  · exact Or.inl (List.singleton_inj.mp (List.append_inj' same rfl).2).symm
  · rw [List.concat_eq_append, ← List.cons_append, ← List.append_assoc] at same
    exact Or.inr ⟨before, (List.append_inj' same rfl).1⟩

theorem unit?_return (first second third : Char) : unit? first second third '\r' = none := by
  have isNone : Text.digit? 16 '\r' = none := by decide
  simp [unit?, isNone]

/-- A backslash must begin an escape. -/
theorem stringContent?_of_noEscape {char : Char} {rest : List Char}
    (noEscape : simpleEscape? char = none)
    (noUnit : ∀ first second third fourth others, char = 'u' →
      rest = first :: second :: third :: fourth :: others →
      unit? first second third fourth = none) :
    stringContent? ('\\' :: char :: rest) = none := by
  by_cases isUnit : ∃ first second third fourth others,
      char = 'u' ∧ rest = first :: second :: third :: fourth :: others
  · obtain ⟨first, second, third, fourth, others, rfl, rfl⟩ := isUnit
    rw [stringContent?.eq_2, noUnit first second third fourth others rfl rfl]
  · rw [stringContent?.eq_3, noEscape]
    exact fun first second third fourth others isU same =>
      isUnit ⟨first, second, third, fourth, others, isU, same⟩

/-- A high surrogate must be followed by another unit. -/
theorem stringContent?_of_unpaired {first second third fourth : Char} {unit : Nat}
    {rest : List Char} (isUnit : unit? first second third fourth = some unit)
    (isHigh : isHighSurrogate unit = true)
    (unpaired : ∀ first second third fourth others,
      rest = '\\' :: 'u' :: first :: second :: third :: fourth :: others →
      unit? first second third fourth = none) :
    stringContent? ('\\' :: 'u' :: first :: second :: third :: fourth :: rest) = none := by
  rw [stringContent?.eq_2, isUnit]
  simp only [isHigh, if_true]
  split
  · rename_i first second third fourth others
    rw [unpaired first second third fourth others rfl]
  · rfl

/-- What stands after the first quote is read alike with a carriage return after it. Only where an
escape is cut off does the carriage return become a part of it, and then there is none. -/
theorem stringContent?_append_return (chars : List Char) :
    stringContent? (chars ++ ['\r']) = stringContent? chars := by
  induction chars using stringContent?.induct with
  | case1 rest => rfl
  | case2 first second third fourth rest noUnit =>
    simp only [List.cons_append, stringContent?.eq_2, noUnit]
  | case3 first second third fourth unit isUnit isHigh first' second' third' fourth' rest noUnit =>
    simp only [List.cons_append, stringContent?.eq_2, isUnit, isHigh, noUnit]
  | case4 first second third fourth unit isUnit isHigh first' second' third' fourth' rest low isLow
      isPair inductionHypothesis =>
    simp only [List.cons_append, stringContent?.eq_2, isUnit, isHigh, isLow, isPair, if_true,
      inductionHypothesis]
  | case5 first second third fourth unit isUnit isHigh first' second' third' fourth' rest low isLow
      notPair =>
    simp only [List.cons_append, stringContent?.eq_2, isUnit, isHigh, isLow, if_true, if_neg notPair]
  | case6 first second third fourth rest unit isUnit isHigh notPair =>
    have isNone : stringContent? ('\\' :: 'u' :: first :: second :: third :: fourth :: rest) = none :=
      stringContent?_of_unpaired isUnit isHigh fun first second third fourth others same =>
        (notPair first second third fourth others same).elim
    refine Eq.trans (stringContent?_of_unpaired isUnit isHigh ?_) isNone.symm
    intro first second third fourth others same
    rcases eq_or_exists_of_append_singleton ['\\', 'u', first, second, third] same with
      rfl | ⟨before, isRest⟩
    · exact unit?_return first second third
    · exact (notPair first second third fourth before isRest).elim
  | case7 first second third fourth rest unit isUnit notHigh isLow =>
    simp only [List.cons_append, stringContent?.eq_2, isUnit, if_neg notHigh, if_pos isLow]
  | case8 first second third fourth rest unit isUnit notHigh notLow inductionHypothesis =>
    simp only [List.cons_append, stringContent?.eq_2, isUnit, if_neg notHigh, if_neg notLow,
      inductionHypothesis]
  | case9 char rest notUnit noEscape =>
    have isNone : stringContent? ('\\' :: char :: rest) = none :=
      stringContent?_of_noEscape noEscape fun first second third fourth others isU same =>
        (notUnit first second third fourth others isU same).elim
    refine Eq.trans (stringContent?_of_noEscape noEscape ?_) isNone.symm
    intro first second third fourth others isU same
    rcases eq_or_exists_of_append_singleton [first, second, third] same with rfl | ⟨before, isRest⟩
    · exact unit?_return first second third
    · exact (notUnit first second third fourth before isU isRest).elim
  | case10 char rest notUnit escaped isEscape inductionHypothesis =>
    have notU : char ≠ 'u' := by
      rintro rfl
      cases isEscape
    rw [List.cons_append, List.cons_append, stringContent?.eq_3 _ _ notUnit,
      stringContent?.eq_3 _ _ fun _ _ _ _ _ isU => absurd isU notU, isEscape, inductionHypothesis]
  | case11 char rest notQuote notUnit notEscape isControl =>
    have notSlash : char ≠ '\\' := by
      rintro rfl
      exact absurd isControl (by decide)
    rw [List.cons_append, stringContent?.eq_4 _ _ notQuote notUnit notEscape,
      stringContent?.eq_4 _ _ notQuote (fun _ _ _ _ _ isSlash => absurd isSlash notSlash)
        (fun _ _ isSlash => absurd isSlash notSlash), if_pos isControl, if_pos isControl]
  | case12 char rest notQuote notUnit notEscape notControl inductionHypothesis =>
    by_cases isSlash : char = '\\'
    · cases rest with
      | nil =>
        subst isSlash
        decide
      | cons escaped others => exact (notEscape escaped others isSlash rfl).elim
    · rw [List.cons_append, stringContent?.eq_4 _ _ notQuote notUnit notEscape,
        stringContent?.eq_4 _ _ notQuote (fun _ _ _ _ _ same => absurd same isSlash)
          (fun _ _ same => absurd same isSlash), inductionHypothesis]
  | case13 => decide

/-! ### Lexemes -/

theorem name?_append_return {name : String} (noReturn : '\r' ∉ name.toList) (lexeme : JsonLexeme)
    (rest : List Char) : name? name lexeme (rest ++ ['\r']) = name? name lexeme rest := by
  have sameBeginning : (name.toList.drop 1).isPrefixOf (rest ++ ['\r']) =
      (name.toList.drop 1).isPrefixOf rest := by
    rw [Bool.eq_iff_iff, List.isPrefixOf_iff_prefix, List.isPrefixOf_iff_prefix,
      List.prefix_concat_iff]
    refine or_iff_right fun isWhole => ?_
    have isLast : '\r' ∈ name.toList.drop 1 := by
      rw [isWhole]
      exact List.mem_append_right _ (List.mem_singleton_self _)
    exact noReturn (List.mem_of_mem_drop isLast)
  rw [name?, name?, sameBeginning]

theorem number?_append_return (first : Char) (rest : List Char) :
    number? first (rest ++ ['\r']) = number? first rest := by
  have noMore : ['\r'].takeWhile isNumberChar = [] := by decide
  have sameOthers : (rest ++ ['\r']).takeWhile isNumberChar = rest.takeWhile isNumberChar := by
    rw [List.takeWhile_append, noMore, List.append_nil]
    split
    · rename_i isWhole
      exact ((List.takeWhile_prefix _).eq_of_length isWhole).symm
    · rfl
  rw [number?, number?, sameOthers]

theorem step?_append_return (first : Char) (rest : List Char) :
    step? first (rest ++ ['\r']) = step? first rest := by
  unfold step?
  split <;> try rfl
  · exact name?_append_return (by decide) _ _
  · exact name?_append_return (by decide) _ _
  · exact name?_append_return (by decide) _ _
  · rw [stringContent?_append_return]
  · rw [number?_append_return]

theorem ofChars?_append_return (extra : Nat) (chars : List Char) :
    ofChars? extra (chars ++ ['\r']) = ofChars? extra chars := by
  induction chars generalizing extra with
  | nil => cases extra <;> rfl
  | cons char rest inductionHypothesis =>
    cases extra with
    | succ extra => exact inductionHypothesis extra
    | zero =>
      rw [List.cons_append, ofChars?, ofChars?, step?_append_return]
      simp only [inductionHypothesis]

end ShallowParse.JsonLexeme
