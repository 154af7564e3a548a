import Imp.StepLimit
import Imp.Proofs.Json.Text
import Imp.Proofs.Rounding

/-!
How step limits are read from decimal numerals: never as zero, in the order of the numerals, and
exactly as far as binary64 has all integers.
-/

namespace Imp

namespace StepLimit

open Binary64 (Nearest)
open Json (ExponentText)

-- The digits behind a point, if there is one.
inductive PointText : List Char → List Char → Prop
  | absent : PointText [] []
  | digits {fs} (isDigit : ∀ c ∈ fs, c.isDigit) : PointText fs ('.' :: fs)

-- An unsigned numeral with its value: at least one digit, and maybe a point and an exponent.
inductive NumeralText : ℚ → List Char → Prop
  | mk {ws fs p n e} (isDigit : ∀ c ∈ ws, c.isDigit) (point : PointText fs p)
      (exponent : ExponentText n e) (ne_nil : ws ≠ [] ∨ fs ≠ []) :
      NumeralText ((Nat.ofDigitChars 10 ws 0 + Nat.ofDigitChars 10 fs 0 / 10 ^ fs.length) * 10 ^ n)
        (ws ++ (p ++ e))

-- A text that has such a numeral, with white space around it.
inductive Spells : String → ℚ → Prop
  | mk {v cs before behind} (blankBefore : ∀ c ∈ before, isWhiteSpace c)
      (numeral : NumeralText v cs) (blankBehind : ∀ c ∈ behind, isWhiteSpace c) :
      Spells (String.ofList (before ++ (cs ++ behind))) v

section Numerals

variable {cs ws fs p e : List Char} {n : ℤ} {v : ℚ}

theorem ends_nil : Json.Ends [] := nofun

theorem exponent?_self (h : ExponentText n e) : Decimal.exponent? e = some (n, []) := by
  simpa using h.exponent?_eq ends_nil

theorem startsApart_exponent (h : ExponentText n e) : Json.StartsApart e := by
  simpa using h.startsApart ends_nil

theorem not_isWhiteSpace_of_exponent (h : ExponentText n e) : ∀ c ∈ e, ¬isWhiteSpace c := by
  cases h with
  | absent => exact nofun
  | @digits e σ t ds hmark hsign hdigits =>
    have hsign : ∀ c ∈ t, ¬isWhiteSpace c := by
      cases hsign with
      | absent => exact nofun
      | plus | minus => exact List.forall_mem_singleton.mpr (by decide)
    have hmark : ¬isWhiteSpace e := by obtain rfl | rfl := hmark <;> decide
    exact List.forall_mem_cons.mpr ⟨hmark, List.forall_mem_append.mpr
      ⟨hsign, fun c hc => not_isWhiteSpace_of_isDigit (hdigits.isDigit c hc)⟩⟩

namespace PointText

theorem startsApart (h : PointText fs p) (he : ExponentText n e) : Json.StartsApart (p ++ e) := by
  cases h with
  | absent => exact startsApart_exponent he
  | digits =>
    rintro _ ⟨⟩
    decide

theorem fraction_eq (h : PointText fs p) (he : ExponentText n e) :
    fraction (p ++ e) = (fs, e) := by
  cases h with
  | absent =>
    cases he with
    | absent => rfl
    | digits hmark => obtain rfl | rfl := hmark <;> rfl
  | digits hdigits =>
    have ⟨htake, hdrop⟩ := takeWhile_append_eq hdigits (startsApart_exponent he)
    rw [List.cons_append, fraction, htake, hdrop]

theorem not_isWhiteSpace (h : PointText fs p) : ∀ c ∈ p, ¬isWhiteSpace c := by
  cases h with
  | absent => exact nofun
  | digits hdigits =>
    exact List.forall_mem_cons.mpr
      ⟨by decide, fun c hc => not_isWhiteSpace_of_isDigit (hdigits c hc)⟩

end PointText

theorem value_ofDigits (ws fs : List Char) (n : ℤ) : (Decimal.ofDigits ws fs n).value =
    (Nat.ofDigitChars 10 ws 0 + Nat.ofDigitChars 10 fs 0 / 10 ^ fs.length) * 10 ^ n := by
  have hpos : (10 : ℚ) ^ fs.length ≠ 0 := by positivity
  rw [Decimal.value, Decimal.ofDigits, Nat.ofDigitChars_append,
    Nat.ofDigitChars_eq_ofDigitChars_zero, zpow_sub₀ (by norm_num), zpow_natCast]
  push_cast
  field_simp

namespace NumeralText

theorem exists_head (h : NumeralText v cs) : ∃ c cs', cs = c :: cs' ∧ (c.isDigit ∨ c = '.') := by
  obtain @⟨ws, fs, p, n, e, hdigits, hpoint, -, hne⟩ := h
  cases ws with
  | nil =>
    cases hpoint with
    | absent => exact hne.elim (absurd rfl) (absurd rfl)
    | digits => exact ⟨'.', _, rfl, .inr rfl⟩
  | cons c ws => exact ⟨c, _, rfl, .inl (hdigits c List.mem_cons_self)⟩

theorem not_isWhiteSpace (h : NumeralText v cs) : ∀ c ∈ cs, ¬isWhiteSpace c := by
  obtain ⟨hdigits, hpoint, hexponent, -⟩ := h
  simp only [List.forall_mem_append]
  exact ⟨fun c hc => not_isWhiteSpace_of_isDigit (hdigits c hc), hpoint.not_isWhiteSpace,
    not_isWhiteSpace_of_exponent hexponent⟩

-- A numeral is read with its value.
theorem numeral?_eq (h : NumeralText v cs) : ∃ x, numeral? cs = some x ∧ x.value = v := by
  obtain @⟨ws, fs, p, n, e, hdigits, hpoint, hexponent, hne⟩ := h
  have ⟨htake, hdrop⟩ := takeWhile_append_eq hdigits (hpoint.startsApart hexponent)
  have hempty : (ws.isEmpty && fs.isEmpty) = false := by
    simpa [Decidable.imp_iff_not_or] using hne
  refine ⟨.ofDigits ws fs n, ?_, value_ofDigits ws fs n⟩
  rw [numeral?, htake, hdrop, hpoint.fraction_eq hexponent]
  simp [exponent?_self hexponent, hempty]

theorem positive?_eq (h : NumeralText v cs) : ∃ x, positive? cs = some x ∧ x.value = v := by
  obtain ⟨c, cs', rfl, hc⟩ := h.exists_head
  have hplus : c ≠ '+' := by
    rintro rfl
    exact absurd hc (by decide)
  have hsame : positive? (c :: cs') = numeral? (c :: cs') := by
    unfold positive?
    split
    case h_1 heq => exact absurd (List.cons.inj heq).1 hplus
    case h_2 => rfl
  exact hsame ▸ h.numeral?_eq

end NumeralText

end Numerals

namespace Spells

variable {s t : String} {v w y : ℚ}

theorem positive?_eq (h : Spells s v) : ∃ x, positive? (trim s.toList) = some x ∧ x.value = v := by
  obtain ⟨hbefore, hnumeral, hbehind⟩ := h
  obtain ⟨c, cs', rfl, -⟩ := hnumeral.exists_head
  have htrimmed := Trimmed.of_not_mem hnumeral.not_isWhiteSpace
  rw [String.toList_ofList, htrimmed.trim_append (List.cons_ne_nil _ _) hbefore hbehind]
  exact hnumeral.positive?_eq

theorem exists_nearest (h : Spells s v) : ∃ y, Nearest v y := by
  obtain ⟨x, -, rfl⟩ := h.positive?_eq
  obtain ⟨b, hb, -⟩ := x.toBinary64?_nearest
  exact ⟨b.value, hb⟩

-- A limit is what the value of the numeral is rounded to, without its fraction.
theorem ofText_eq (h : Spells s v) (hy : Nearest v y) : ofText s =
    if 1 ≤ y ∧ y < 2 ^ 1024 then .ok (min ⌊y⌋₊ greatest) else .error (.unreadable s) := by
  obtain ⟨x, hx, rfl⟩ := h.positive?_eq
  obtain ⟨b, hb, hround⟩ := x.toBinary64?_nearest
  obtain rfl := hy.unique hb
  rw [ofText, hx, Option.bind_some, hround]
  by_cases hfinite : b.value < 2 ^ 1024
  case neg => rw [if_neg hfinite, if_neg fun h => hfinite h.2]
  case pos =>
    rw [if_pos hfinite]
    dsimp only
    rw [b.floor_eq]
    by_cases hone : 1 ≤ b.value
    case pos => rw [if_neg (Nat.floor_pos.mpr hone).ne', if_pos ⟨hone, hfinite⟩]
    case neg => rw [if_pos (Nat.floor_eq_zero.mpr (not_le.mp hone)), if_neg fun h => hone h.1]

theorem ofText_eq_ok_iff {n : ℕ} (h : Spells s v) (hy : Nearest v y) :
    ofText s = .ok n ↔ (1 ≤ y ∧ y < 2 ^ 1024) ∧ min ⌊y⌋₊ greatest = n := by
  rw [h.ofText_eq hy]
  split <;> simp_all

end Spells

section Limits

variable {s t text : String} {v w : ℚ} {m n : ℕ}

-- Whatever is read is a limit.
theorem check_of_ofText (h : ofText text = .ok n) : 1 ≤ n ∧ n ≤ 2 ^ 64 - 1 ∧ check n = .ok n := by
  have hpos : 1 ≤ n ∧ n ≤ 2 ^ 64 - 1 := by
    unfold ofText at h
    split at h
    case h_2 => nomatch h
    case h_1 b hb =>
      split at h
      case isTrue => nomatch h
      case isFalse hzero =>
        obtain rfl := Except.ok.inj h
        exact ⟨le_min (Nat.pos_of_ne_zero hzero) (by decide), min_le_right _ _⟩
  exact ⟨hpos.1, hpos.2, if_neg (Nat.one_le_iff_ne_zero.mp hpos.1)⟩

theorem exists_le_of_le (hs : Spells s v) (ht : Spells t w) (hle : v ≤ w)
    (hfinite : ∃ y < 2 ^ 1024, Nearest w y) (h : ofText s = .ok m) :
    ∃ n, ofText t = .ok n ∧ m ≤ n := by
  obtain ⟨x, hx⟩ := hs.exists_nearest
  obtain ⟨y, hlt, hy⟩ := hfinite
  have hxy := hx.mono hy hle
  obtain ⟨⟨hone, -⟩, rfl⟩ := (hs.ofText_eq_ok_iff hx).mp h
  exact ⟨_, (ht.ofText_eq_ok_iff hy).mpr ⟨⟨hone.trans hxy, hlt⟩, rfl⟩,
    min_le_min_right _ (Nat.floor_mono hxy)⟩

theorem ofText_natCast (hs : Spells s n) (hone : 1 ≤ n) (hn : n ≤ 2 ^ 53) : ofText s = .ok n := by
  have hnearest := Binary64.nearest_self (Binary64.onGrid_natCast hn)
  have hgreatest : 2 ^ 53 ≤ greatest := by decide
  refine (hs.ofText_eq_ok_iff hnearest).mpr ⟨⟨Nat.one_le_cast.mpr hone, ?_⟩, ?_⟩
  · calc
      (n : ℚ) ≤ 2 ^ 53 := by exact_mod_cast hn
      _ < 2 ^ 1024 := pow_lt_pow_right₀ one_lt_two (by decide)
  · rw [Nat.floor_natCast]
    exact min_eq_left (hn.trans hgreatest)

-- Limits are never zero, they keep the order of numerals that are not too great, and small ones
-- are exact, however they are spelled.
theorem ofText_monotone_exact :
    (∀ text n, ofText text = .ok n → 1 ≤ n ∧ n ≤ 2 ^ 64 - 1 ∧ check n = .ok n) ∧
    (∀ s t v w m, Spells s v → Spells t w → v ≤ w → (∃ y < 2 ^ 1024, Nearest w y) →
      ofText s = .ok m → ∃ n, ofText t = .ok n ∧ m ≤ n) ∧
    ∀ s (n : ℕ), Spells s n → 1 ≤ n → n ≤ 2 ^ 53 → ofText s = .ok n :=
  ⟨fun _ _ => check_of_ofText, fun _ _ _ _ _ => exists_le_of_le, fun _ _ => ofText_natCast⟩

-- A numeral with all its parts, and one in the middle between two numbers of binary64.
theorem spells_parts : Spells " 0.0012e+6\t" (1200 : ℕ) := by
  have hexponent : ExponentText 6 ['e', '+', '6'] :=
    @ExponentText.digits 'e' 1 ['+'] ['6'] (.inl rfl) .plus
      ⟨by decide, List.all_eq_true.mp rfl⟩
  have hnumeral := @NumeralText.mk ['0'] ['0', '0', '1', '2'] _ 6 _
    (List.all_eq_true.mp rfl) (.digits (List.all_eq_true.mp rfl)) hexponent (.inl (by decide))
  have hwhole : Nat.ofDigitChars 10 ['0'] 0 = 0 := rfl
  have hfraction : Nat.ofDigitChars 10 ['0', '0', '1', '2'] 0 = 12 := rfl
  have hvalue : ((0 : ℕ) + (12 : ℕ) / 10 ^ 4) * 10 ^ (6 : ℤ) = ((1200 : ℕ) : ℚ) := by norm_num
  rw [hwhole, hfraction, List.length_cons] at hnumeral
  exact hvalue ▸ @Spells.mk _ _ [' '] ['\t'] (List.all_eq_true.mp rfl) hnumeral
    (List.all_eq_true.mp rfl)

theorem spells_middle : Spells "9007199254740993" (2 ^ 53 + 1) := by
  have hnumeral := @NumeralText.mk "9007199254740993".toList [] _ 0 _ (List.all_eq_true.mp rfl)
    .absent .absent (.inl (by decide))
  have hwhole : Nat.ofDigitChars 10 "9007199254740993".toList 0 = 9007199254740993 := by decide
  have hvalue : ((9007199254740993 : ℕ) + (0 : ℕ) / 10 ^ 0) * 10 ^ (0 : ℤ) = (2 ^ 53 + 1 : ℚ) := by
    norm_num
  rw [hwhole] at hnumeral
  exact hvalue ▸ @Spells.mk _ _ [] [] nofun hnumeral nofun

theorem nearest_middle : Nearest (2 ^ 53 + 1) (2 ^ 53) := by
  have hu : Binary64.IsUlp (2 ^ 53 + 1) 1 :=
    ⟨by decide, by norm_num, fun _ => by norm_num⟩
  have hhalf : |((2 ^ 52 : ℕ) : ℚ) - (2 ^ 53 + 1) / 2 ^ (1 : ℤ)| = 1 / 2 := by
    rw [abs_eq (by norm_num)]
    norm_num
  have heven : Even (2 ^ 52) := by decide
  have hvalue : ((2 ^ 52 : ℕ) : ℚ) * 2 ^ (1 : ℤ) = 2 ^ 53 := by norm_num
  exact hvalue ▸ hu.nearest hhalf.le fun _ => heven

theorem middle_monotone_exact :
    ofText " 0.0012e+6\t" = .ok 1200 ∧
      ∃ n, ofText "9007199254740993" = .ok n ∧ 1200 ≤ n ∧ n ≤ 2 ^ 64 - 1 ∧ check n = .ok n := by
  have ⟨hlimit, hmono, hexact⟩ := ofText_monotone_exact
  have hparts := hexact _ 1200 spells_parts (by decide) (by decide)
  have hlt : (2 : ℚ) ^ 53 < 2 ^ 1024 := pow_lt_pow_right₀ one_lt_two (by decide)
  obtain ⟨n, hn, hle⟩ := hmono _ _ _ _ _ spells_parts spells_middle (by norm_num)
    ⟨_, hlt, nearest_middle⟩ hparts
  have ⟨_, hgreatest, hcheck⟩ := hlimit _ n hn
  exact ⟨hparts, n, hn, hle, hgreatest, hcheck⟩

end Limits

end StepLimit

end Imp
