import Mathlib.Data.List.Lex

/-!
Strings in the order of their bytes. The encoding keeps the order of characters, so this is the
order that names are sorted by.
-/

namespace Imp

open String (utf8EncodeChar)

-- The bytes of a text come before those of another one: at the first difference they are less, or
-- they end there.
def ByteLt (s t : String) : Prop :=
  List.Lex (· < ·) s.toByteArray.data.toList t.toByteArray.data.toList

section Encoding

variable {c d : Char} {cs ds : List Char}

-- Characters are told apart before the bytes of either one end.
theorem lex_utf8EncodeChar (h : c < d) (xs ys : List UInt8) :
    List.Lex (· < ·) (utf8EncodeChar c ++ xs) (utf8EncodeChar d ++ ys) := by
  have h : c.val.toNat < d.val.toNat := h
  have hd : d.val.toNat < 1114112 := by
    have := d.valid
    simp only [UInt32.isValidChar, Nat.isValidChar] at this
    omega
  -- digits to the base 64, so that equal ones in front leave the difference to the last
  have hdigits (n : Nat) : n / 4096 = n / 64 / 64 ∧ n / 262144 = n / 64 / 64 / 64 := by omega
  simp only [utf8EncodeChar]
  generalize c.val.toNat = v, d.val.toNat = w at *
  simp only [hdigits]
  repeat' split
  all_goals
    simp only [List.cons_append, List.nil_append, List.cons_lex_cons_iff, UInt8.lt_iff_toNat_lt,
      UInt8.toNat_ofNat', ← UInt8.toNat_inj]
    omega

theorem lex_flatMap_utf8EncodeChar (h : List.Lex (· < ·) cs ds) :
    List.Lex (· < ·) (cs.flatMap utf8EncodeChar) (ds.flatMap utf8EncodeChar) := by
  induction h with
  | @nil d ds =>
    cases hd : utf8EncodeChar d with
    | nil => exact absurd hd String.utf8EncodeChar_ne_nil
    | cons b bs =>
      rw [List.flatMap_cons, hd]
      exact .nil
  | cons _ ih =>
    rw [List.flatMap_cons, List.flatMap_cons]
    exact .append_left _ ih _
  | rel h =>
    rw [List.flatMap_cons, List.flatMap_cons]
    exact lex_utf8EncodeChar h _ _

end Encoding

variable {s t : String}

theorem bytes_toByteArray (s : String) :
    s.toByteArray.data.toList = s.toList.flatMap utf8EncodeChar := by
  rw [← String.utf8Encode_toList, List.utf8Encode, List.toList_data_toByteArray]

theorem byteLt_of_lt (h : s < t) : ByteLt s t := by
  rw [ByteLt, bytes_toByteArray, bytes_toByteArray]
  exact lex_flatMap_utf8EncodeChar (List.lex_lt.mpr h)

theorem byteLt_iff : ByteLt s t ↔ s < t := by
  refine ⟨fun h => ?_, byteLt_of_lt⟩
  by_contra hlt
  by_cases heq : s = t
  case pos => exact List.lt_irrefl _ (heq ▸ h)
  case neg =>
    have hgt : t < s := by grind
    exact List.lt_asymm h (byteLt_of_lt hgt)

end Imp
