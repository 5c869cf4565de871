/-
This file proves that texts in the order of their characters are in the order of their
bytes. The first byte of a character never gets smaller as characters get larger. Where
it is the same the characters have as many bytes, and those after it hold the last digits
of the code point to base 64.
-/

import Mathlib.Data.String.Basic
import Mathlib.Tactic.SplitIfs

namespace ShallowParse.Text

/-- The bytes of a text in UTF-8. -/
def bytes (text : String) : List UInt8 :=
  text.toUTF8.data.toList

/-! ### Bytes of a character -/

/-- How many bytes stand after the first one of a code point. -/
def countAfterFirst (code : Nat) : Nat :=
  if code ≤ 127 then 0 else if code ≤ 2047 then 1 else if code ≤ 65535 then 2 else 3

/-- The first byte of a code point. -/
def firstByte (code : Nat) : Nat :=
  if code ≤ 127 then code
  else if code ≤ 2047 then code / 64 + 192
  else if code ≤ 65535 then code / 4096 + 224
  else code / 262144 + 240

/-- The last bytes of a code point, of which there are so many. -/
def lastBytes : Nat → Nat → List UInt8
  | 0, _ => []
  | count + 1, code => lastBytes count (code / 64) ++ [.ofNat (code % 64 + 128)]

theorem val_lt (char : Char) : char.val.toNat < 1114112 := by
  rcases char.valid with isLow | isHigh
  · exact Nat.lt_trans isLow (by decide)
  · exact isHigh.2

theorem firstByte_lt {code : Nat} (within : code < 1114112) : firstByte code < 256 := by
  rw [firstByte]
  split_ifs <;> omega

theorem utf8EncodeChar_eq (char : Char) :
    String.utf8EncodeChar char = .ofNat (firstByte char.val.toNat) ::
      lastBytes (countAfterFirst char.val.toNat) char.val.toNat := by
  have within := val_lt char
  rw [String.utf8EncodeChar, firstByte, countAfterFirst]
  generalize char.val.toNat = code at within ⊢
  split_ifs
  · rfl
  · rw [Nat.mod_eq_of_lt (a := code / 64) (by omega)]
    rfl
  · rw [Nat.mod_eq_of_lt (a := code / 4096) (by omega)]
    rfl
  · rw [Nat.mod_eq_of_lt (a := code / 262144) (by omega)]
    simp only [lastBytes, Nat.div_div_eq_div_mul, List.nil_append, List.cons_append]

/-- Either the first byte gets larger, or the code points differ after it only. -/
theorem firstByte_lt_or {left right : Nat} (less : left < right) :
    firstByte left < firstByte right ∨ firstByte left = firstByte right ∧
      countAfterFirst left = countAfterFirst right ∧
      left / 64 ^ countAfterFirst left = right / 64 ^ countAfterFirst left := by
  rw [firstByte, firstByte, countAfterFirst, countAfterFirst]
  split_ifs <;> omega

/-! ### Order -/

theorem ofNat_cons_lt_iff {left right : Nat} (isLeft : left < 256) (isRight : right < 256)
    (lefts rights : List UInt8) :
    UInt8.ofNat left :: lefts < UInt8.ofNat right :: rights ↔
      left < right ∨ left = right ∧ lefts < rights := by
  rw [List.cons_lt_cons_iff, UInt8.lt_iff_toNat_lt, ← UInt8.toNat_inj, UInt8.toNat_ofNat',
    UInt8.toNat_ofNat', Nat.mod_eq_of_lt isLeft, Nat.mod_eq_of_lt isRight]

theorem lastBytes_append_lt (count : Nat) {left right : Nat} (less : left < right)
    (same : left / 64 ^ count = right / 64 ^ count) (lefts rights : List UInt8) :
    lastBytes count left ++ lefts < lastBytes count right ++ rights := by
  induction count generalizing left right lefts rights with
  | zero =>
    rw [Nat.pow_zero, Nat.div_one, Nat.div_one] at same
    exact absurd same less.ne
  | succ count inductionHypothesis =>
    rw [lastBytes, lastBytes, List.append_assoc, List.append_assoc]
    rcases (Nat.div_le_div_right (c := 64) less.le).lt_or_eq with isLess | isSame
    · refine inductionHypothesis isLess ?_ _ _
      rwa [Nat.div_div_eq_div_mul, Nat.div_div_eq_div_mul, ← Nat.pow_succ']
    · rw [isSame]
      refine List.append_left_lt ?_
      exact (ofNat_cons_lt_iff (by omega) (by omega) _ _).mpr (Or.inl (by omega))

theorem utf8EncodeChar_append_lt {left right : Char} (less : left < right)
    (lefts rights : List UInt8) :
    String.utf8EncodeChar left ++ lefts < String.utf8EncodeChar right ++ rights := by
  have lessCode : left.val.toNat < right.val.toNat := less
  rw [utf8EncodeChar_eq, utf8EncodeChar_eq, List.cons_append, List.cons_append,
    ofNat_cons_lt_iff (firstByte_lt (val_lt left)) (firstByte_lt (val_lt right))]
  refine (firstByte_lt_or lessCode).imp_right fun ⟨sameFirst, sameCount, same⟩ => ⟨sameFirst, ?_⟩
  rw [← sameCount]
  exact lastBytes_append_lt _ lessCode same lefts rights

theorem bytes_eq (text : String) : bytes text = text.toList.flatMap String.utf8EncodeChar := by
  rw [bytes, String.toUTF8_eq_toByteArray]
  conv => lhs; rw [← String.ofList_toList (s := text), String.toByteArray_ofList]
  exact List.toList_data_toByteArray

/-- A smaller text has smaller bytes. -/
theorem bytes_lt_bytes {left right : String} (less : left < right) : bytes left < bytes right := by
  rw [bytes_eq, bytes_eq]
  have charsLess : left.toList < right.toList := String.lt_iff.mp less
  generalize left.toList = lefts, right.toList = rights at charsLess
  induction charsLess with
  | nil =>
    rename_i char rest
    rw [List.flatMap_nil, List.flatMap_cons, utf8EncodeChar_eq, List.cons_append]
    exact List.nil_lt_cons _ _
  | cons _ inductionHypothesis =>
    rw [List.flatMap_cons, List.flatMap_cons]
    exact List.append_left_lt inductionHypothesis
  | rel isLess =>
    rw [List.flatMap_cons, List.flatMap_cons]
    exact utf8EncodeChar_append_lt isLess _ _

end ShallowParse.Text
