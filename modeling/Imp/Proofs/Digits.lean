import Imp.StepLimit

/-!
Runs of characters at the head of a text, white space around it, and the digits of a number.
-/

namespace Imp

-- A run of characters of a kind, in front of anything else.
theorem takeWhile_append_eq {f : Char → Bool} {w cs : List Char} (hw : ∀ c ∈ w, f c)
    (hcs : ∀ c ∈ cs.head?, ¬f c) : (w ++ cs).takeWhile f = w ∧ (w ++ cs).dropWhile f = cs := by
  rw [List.takeWhile_append_of_pos hw, List.dropWhile_append_of_pos hw]
  cases cs with
  | nil => simp
  | cons c cs =>
    have hc : f c = false := Bool.eq_false_iff.mpr (hcs c rfl)
    simp [hc]

theorem not_of_mem_head?_dropWhile {f : Char → Bool} {cs : List Char} :
    ∀ c ∈ (cs.dropWhile f).head?, ¬f c := by
  intro c hc
  have := List.head?_dropWhile_not f cs
  simpa [Option.mem_def.mp hc] using this

namespace StepLimit

-- There is no white space at either end.
structure Trimmed (cs : List Char) : Prop where
  head : ∀ c ∈ cs.head?, ¬isWhiteSpace c
  last : ∀ c ∈ cs.getLast?, ¬isWhiteSpace c

theorem trimmed_iff {cs : List Char} : Trimmed cs ↔
    cs.head?.all (!isWhiteSpace ·) ∧ cs.getLast?.all (!isWhiteSpace ·) := by
  simp only [Option.all_eq_true, Bool.not_eq_true', ← Bool.not_eq_true]
  exact ⟨fun h => ⟨h.head, h.last⟩, fun h => ⟨h.1, h.2⟩⟩

instance {cs : List Char} : Decidable (Trimmed cs) :=
  decidable_of_iff _ trimmed_iff.symm

theorem Trimmed.of_not_mem {cs : List Char} (h : ∀ c ∈ cs, ¬isWhiteSpace c) : Trimmed cs where
  head c hc := h c (List.mem_of_mem_head? hc)
  last c hc := h c (List.mem_of_getLast? hc)

theorem Trimmed.trim_append {cs before behind : List Char} (h : Trimmed cs) (hne : cs ≠ [])
    (hbefore : ∀ c ∈ before, isWhiteSpace c) (hbehind : ∀ c ∈ behind, isWhiteSpace c) :
    trim (before ++ (cs ++ behind)) = cs := by
  have hhead : ∀ c ∈ (cs ++ behind).head?, ¬isWhiteSpace c := by
    obtain ⟨c, cs, rfl⟩ := List.exists_cons_of_ne_nil hne
    exact h.head
  have hlast : ∀ c ∈ cs.reverse.head?, ¬isWhiteSpace c := by
    rw [List.head?_reverse]
    exact h.last
  have hreverse : ∀ c ∈ behind.reverse, isWhiteSpace c := fun c hc =>
    hbehind c (List.mem_reverse.mp hc)
  rw [trim, (takeWhile_append_eq hbefore hhead).2, List.reverse_append,
    (takeWhile_append_eq hreverse hlast).2, List.reverse_reverse]

theorem Trimmed.trim_eq {cs : List Char} (h : Trimmed cs) : trim cs = cs := by
  by_cases hne : cs = []
  case pos => subst hne; rfl
  case neg =>
    have hnil : ∀ c ∈ ([] : List Char), isWhiteSpace c := nofun
    simpa using h.trim_append hne hnil hnil

theorem not_isWhiteSpace_of_isDigit {c : Char} (h : c.isDigit) : ¬isWhiteSpace c := by
  have ⟨hzero, hnine⟩ := Char.isDigit_iff_toNat.mp h
  have hzero : 48 ≤ c.toNat := hzero
  have hnine : c.toNat ≤ 57 := hnine
  simp only [isWhiteSpace, Bool.or_eq_true, Bool.and_eq_true, decide_eq_true_eq]
  omega

end StepLimit

theorem isDigit_of_mem_toDigits {n : Nat} : ∀ c ∈ Nat.toDigits 10 n, c.isDigit := fun _ =>
  Nat.isDigit_of_mem_toDigits (by decide) (by decide)

-- The text of a value that is not negative consists of its digits.
theorem exists_digits_of_nonneg {v : Int32} (h : 0 ≤ v) :
    ∃ n : Nat, v.toInt = n ∧ (toString v.toInt).toList = Nat.toDigits 10 n := by
  obtain ⟨n, hn⟩ := Int.eq_ofNat_of_zero_le (Int32.le_iff_toInt_le.mp h)
  refine ⟨n, hn, ?_⟩
  rw [hn]
  exact Nat.toList_repr

-- The digits of an integer, behind a sign if it is negative.
theorem toString_int_cases (i : Int) :
    (∃ n : Nat, i = n ∧ (toString i).toList = Nat.toDigits 10 n) ∨
    ∃ n : Nat, i = -n ∧ (toString i).toList = '-' :: Nat.toDigits 10 n := by
  cases i with
  | ofNat n => exact .inl ⟨n, rfl, Nat.toList_repr⟩
  | negSucc n =>
    have htext : toString (Int.negSucc n) = "-" ++ Nat.repr (n + 1) := rfl
    refine .inr ⟨n + 1, rfl, ?_⟩
    rw [htext, String.toList_append, Nat.toList_repr]
    rfl

theorem toString_toInt_cases (v : Int32) :
    (∃ n : Nat, n < 2147483648 ∧ v = .ofInt n ∧ (toString v.toInt).toList = Nat.toDigits 10 n) ∨
    ∃ n : Nat, n ≤ 2147483648 ∧ v = .ofInt (-n) ∧
      (toString v.toInt).toList = '-' :: Nat.toDigits 10 n := by
  have hle := v.le_toInt
  have hlt := v.toInt_lt
  have hv := v.ofInt_toInt
  obtain ⟨n, hi, htext⟩ | ⟨n, hi, htext⟩ := toString_int_cases v.toInt <;> rw [hi] at hle hlt hv
  case inl => exact .inl ⟨n, by simp at hlt; omega, hv.symm, htext⟩
  case inr => exact .inr ⟨n, by omega, hv.symm, htext⟩

-- The digits of a number do not start with a zero, unless it is zero.
theorem eq_zero_of_head_toDigits {n : Nat} (h : (Nat.toDigits 10 n).head? = some '0') : n = 0 := by
  induction n using Nat.strongRecOn with
  | ind n ih =>
    by_cases hn : n < 10
    case pos =>
      rw [Nat.toDigits_of_lt_base hn] at h
      have hdigit : ∀ n < 10, n.digitChar = '0' → n = 0 := by decide
      exact hdigit n hn (Option.some.inj h)
    case neg =>
      rw [Nat.toDigits_of_base_le (by decide) (by omega)] at h
      have hhead : (Nat.toDigits 10 (n / 10)).head? = some '0' := by
        cases hd : Nat.toDigits 10 (n / 10) with
        | nil => exact (Nat.toDigits_ne_nil hd).elim
        | cons c w => simpa [hd] using h
      have := ih (n / 10) (by omega) hhead
      omega

end Imp
