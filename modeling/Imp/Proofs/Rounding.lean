import Imp.Decimal
import Mathlib.Algebra.Order.Floor.Semifield
import Mathlib.Data.Rat.Floor
import Mathlib.Tactic.FieldSimp
import Mathlib.Tactic.Linarith
import Mathlib.Tactic.Positivity
import Mathlib.Tactic.Ring

/-!
Rounding to binary64. A number is rounded to the nearest one of a grid, and of two nearest ones to
the even one. So roundings keep the order of numbers, and numbers on the grid stay what they are.
-/

namespace Imp

-- A power with an integer exponent, by powers with natural ones.
theorem pow_toNat_div (b : ℚ) (e : ℤ) : b ^ e.toNat / b ^ (-e).toNat = b ^ e := by
  obtain ⟨k, rfl | rfl⟩ := e.eq_nat_or_neg <;> simp

namespace Binary64

def value (b : Binary64) : ℚ :=
  b.mantissa * 2 ^ b.exponent

structure Legal (b : Binary64) : Prop where
  mantissa : b.mantissa < 2 ^ 53
  exponent : -1074 ≤ b.exponent

-- The numbers of binary64, if they did not end at some exponent.
def OnGrid (y : ℚ) : Prop :=
  ∃ b : Binary64, b.Legal ∧ b.value = y

-- Those of them with an even mantissa.
def IsEven (y : ℚ) : Prop :=
  ∃ b : Binary64, b.Legal ∧ Even b.mantissa ∧ b.value = y

-- What a number is rounded to.
structure Nearest (v y : ℚ) : Prop where
  onGrid : OnGrid y
  le : ∀ z, OnGrid z → |y - v| ≤ |z - v|
  even : ∀ z, OnGrid z → z ≠ y → |z - v| = |y - v| → IsEven y

section Grid

variable {e : ℤ} {m : ℕ} {y z : ℚ}

theorem two_zpow_add (e : ℤ) (k : ℕ) : (2 : ℚ) ^ (e + k) = 2 ^ k * 2 ^ e := by
  rw [zpow_add₀ two_ne_zero, zpow_natCast, mul_comm]

theorem two_zpow_le {e f : ℤ} (h : e ≤ f) : (2 : ℚ) ^ e ≤ 2 ^ f :=
  zpow_le_zpow_right₀ one_le_two h

theorem two_zpow_pos (e : ℤ) : (0 : ℚ) < 2 ^ e :=
  zpow_pos two_pos e

theorem mul_two_zpow_lt {k : ℕ} : (k : ℚ) * 2 ^ e < m * 2 ^ e ↔ k < m := by
  rw [mul_lt_mul_iff_left₀ (two_zpow_pos e), Nat.cast_lt]

theorem onGrid_of_lt (hm : m < 2 ^ 53) (he : -1074 ≤ e) : OnGrid (m * 2 ^ e) :=
  ⟨⟨m, e⟩, ⟨hm, he⟩, rfl⟩

-- A mantissa can be one too great: then it is even, and its half has the next exponent.
theorem pow_mul_two_zpow (e : ℤ) : ((2 ^ 53 : ℕ) : ℚ) * 2 ^ e = (2 ^ 52 : ℕ) * 2 ^ (e + 1) := by
  rw [zpow_add_one₀ two_ne_zero]
  push_cast
  ring

theorem onGrid_of_le (hm : m ≤ 2 ^ 53) (he : -1074 ≤ e) : OnGrid (m * 2 ^ e) := by
  obtain hm | rfl := Nat.lt_or_eq_of_le hm
  case inl => exact onGrid_of_lt hm he
  case inr => exact pow_mul_two_zpow e ▸ onGrid_of_lt (by decide) (by omega)

theorem onGrid_natCast (hm : m ≤ 2 ^ 53) : OnGrid m := by
  simpa using onGrid_of_le hm (e := 0) (by decide)

theorem onGrid_pow (k : ℕ) : OnGrid (2 ^ k) := by
  simpa using onGrid_of_lt (m := 1) (e := k) (by decide) (by omega)

theorem isEven_of_le (hm : m ≤ 2 ^ 53) (he : -1074 ≤ e) (heven : Even m) :
    IsEven (m * 2 ^ e) := by
  obtain hm | rfl := Nat.lt_or_eq_of_le hm
  case inl => exact ⟨⟨m, e⟩, ⟨hm, he⟩, heven, rfl⟩
  case inr =>
    have hm : 2 ^ 52 < 2 ^ 53 := by decide
    have heven : Even (2 ^ 52) := by decide
    exact pow_mul_two_zpow e ▸ ⟨⟨2 ^ 52, e + 1⟩, ⟨hm, Int.le_add_one he⟩, heven, rfl⟩

-- A number with an exponent that is not less is a multiple.
theorem exists_mul_two_zpow {f : ℤ} (h : e ≤ f) (m : ℕ) :
    ∃ k : ℕ, (m : ℚ) * 2 ^ f = (m * 2 ^ k : ℕ) * 2 ^ e := by
  obtain ⟨k, rfl⟩ := Int.le.dest h
  refine ⟨k, ?_⟩
  rw [two_zpow_add]
  push_cast
  ring

-- From where on the grid has gaps of a size, its numbers are multiples of that size.
theorem OnGrid.multiple_or_lt (h : OnGrid z) (e : ℤ) :
    (∃ k : ℕ, z = k * 2 ^ e) ∨ -1074 < e ∧ z < 2 ^ (e + 52) := by
  obtain ⟨⟨m, f⟩, ⟨hm, hf⟩, rfl⟩ := h
  dsimp only [value] at hm hf ⊢
  obtain hle | hlt := le_or_gt e f
  case inl =>
    obtain ⟨k, hk⟩ := exists_mul_two_zpow hle m
    exact .inl ⟨_, hk⟩
  case inr =>
    refine .inr ⟨by omega, ?_⟩
    calc
      (m : ℚ) * 2 ^ f < 2 ^ 53 * 2 ^ f := by
        exact mul_lt_mul_of_pos_right (by exact_mod_cast hm) (two_zpow_pos f)
      _ = 2 ^ (f + 53) := (two_zpow_add f 53).symm
      _ ≤ 2 ^ (e + 52) := two_zpow_le (by omega)

end Grid

section Nearest

variable {v w y z : ℚ}

theorem nearest_self (h : OnGrid y) : Nearest y y where
  onGrid := h
  le z _ := by rw [sub_self, abs_zero]; exact abs_nonneg _
  even z _ hne heq := by
    rw [sub_self, abs_zero, abs_eq_zero, sub_eq_zero] at heq
    exact absurd heq hne

-- What is nearer to the greater one of two numbers is behind their middle.
theorem add_le_of_abs_le (h : |y - v| ≤ |z - v|) (hzy : z < y) : z + y ≤ 2 * v := by
  have hsq := sq_le_sq.mpr h
  nlinarith

theorem le_add_of_abs_le (h : |z - v| ≤ |y - v|) (hzy : z < y) : 2 * v ≤ z + y := by
  have hsq := sq_le_sq.mpr h
  nlinarith

-- Two even numbers of the grid have another one between them.
theorem exists_between (hz : IsEven z) (hy : IsEven y) (h : z < y) :
    ∃ u, OnGrid u ∧ z < u ∧ u < y := by
  obtain ⟨⟨k, f⟩, hk, ⟨k', hkeven⟩, rfl⟩ := hz
  obtain ⟨⟨m, e⟩, hm, ⟨m', hmeven⟩, rfl⟩ := hy
  have ⟨hk, hf⟩ := hk
  have ⟨hm, he⟩ := hm
  dsimp only [value] at *
  -- The one with the smaller gap to its neighbours has the neighbour in between.
  obtain hle | hlt := le_or_gt f e
  case inl =>
    obtain ⟨j, hj⟩ := exists_mul_two_zpow hle m
    rw [hj] at h ⊢
    have heven : m * 2 ^ j = 2 * (m' * 2 ^ j) := by rw [hmeven]; ring
    have hkm := mul_two_zpow_lt.mp h
    exact ⟨(k + 1 : ℕ) * 2 ^ f, onGrid_of_lt (by omega) hf, mul_two_zpow_lt.mpr (by omega),
      mul_two_zpow_lt.mpr (by omega)⟩
  case inr =>
    obtain ⟨j, hj⟩ := exists_mul_two_zpow hlt.le k
    rw [hj] at h ⊢
    have heven : k * 2 ^ j = 2 * (k' * 2 ^ j) := by rw [hkeven]; ring
    have hkm := mul_two_zpow_lt.mp h
    exact ⟨(m - 1 : ℕ) * 2 ^ e, onGrid_of_lt (by omega) he, mul_two_zpow_lt.mpr (by omega),
      mul_two_zpow_lt.mpr (by omega)⟩

theorem Nearest.not_lt_of_nearest (hy : Nearest v y) (hz : Nearest v z) : ¬z < y := by
  intro h
  have heq : |z - v| = |y - v| := le_antisymm (hz.le y hy.onGrid) (hy.le z hz.onGrid)
  have hmiddle : z + y = 2 * v :=
    le_antisymm (add_le_of_abs_le heq.ge h) (le_add_of_abs_le heq.le h)
  obtain ⟨u, hu, hzu, huy⟩ := exists_between (hz.even y hy.onGrid h.ne' heq.symm)
    (hy.even z hz.onGrid h.ne heq) h
  have hle := sq_le_sq.mpr (hy.le u hu)
  nlinarith

theorem Nearest.unique (hy : Nearest v y) (hz : Nearest v z) : y = z :=
  le_antisymm (not_lt.mp (hy.not_lt_of_nearest hz)) (not_lt.mp (hz.not_lt_of_nearest hy))

theorem Nearest.mono (hy : Nearest v y) (hz : Nearest w z) (h : v ≤ w) : y ≤ z := by
  obtain rfl | hlt := h.eq_or_lt
  case inl => exact (hy.unique hz).le
  case inr =>
    by_contra hzy
    rw [not_le] at hzy
    have hv := add_le_of_abs_le (hy.le z hz.onGrid) hzy
    have hw := le_add_of_abs_le (hz.le y hy.onGrid) hzy
    linarith

end Nearest

section Division

variable {n d k m : ℕ} {x : ℚ}

theorem div_eq_add_mod_div (n : ℕ) (hd : 0 < d) : (n : ℚ) / d = (n / d : ℕ) + (n % d : ℕ) / d := by
  have hpos : (d : ℚ) ≠ 0 := Nat.cast_ne_zero.mpr hd.ne'
  rw [div_eq_iff hpos, add_mul, div_mul_cancel₀ _ hpos, mul_comm]
  exact_mod_cast (Nat.div_add_mod n d).symm

theorem abs_roundDiv_sub_le (n : ℕ) (hd : 0 < d) : |(roundDiv n d : ℚ) - n / d| ≤ 1 / 2 ∧
    (|(roundDiv n d : ℚ) - n / d| = 1 / 2 → Even (roundDiv n d)) := by
  have hpos : (0 : ℚ) < d := Nat.cast_pos.mpr hd
  have hlt : (n % d : ℕ) / (d : ℚ) < 1 / 2 ↔ 2 * (n % d) < d := by
    rw [div_lt_div_iff₀ hpos two_pos, one_mul, mul_comm]
    exact_mod_cast Iff.rfl
  have htie : (n % d : ℕ) / (d : ℚ) = 1 / 2 ↔ 2 * (n % d) = d := by
    rw [div_eq_div_iff hpos.ne' two_ne_zero, one_mul, mul_comm]
    exact_mod_cast Iff.rfl
  have hnonneg : 0 ≤ (n % d : ℕ) / (d : ℚ) := by positivity
  have hone : (n % d : ℕ) / (d : ℚ) ≤ 1 :=
    (div_le_one hpos).mpr (Nat.cast_le.mpr (Nat.mod_lt n hd).le)
  rw [div_eq_add_mod_div n hd, roundDiv]
  generalize (n % d : ℕ) / (d : ℚ) = f at *
  split
  case isTrue h =>
    rw [sub_add_cancel_left, abs_neg, abs_of_nonneg hnonneg]
    obtain h | ⟨h, heven⟩ := h
    case inl => exact ⟨(hlt.mpr h).le, fun heq => absurd heq (hlt.mpr h).ne⟩
    case inr => exact ⟨(htie.mpr h).le, fun _ => Nat.even_iff.mpr heven⟩
  case isFalse h =>
    have hsub : ((n / d + 1 : ℕ) : ℚ) - ((n / d : ℕ) + f) = 1 - f := by
      push_cast
      ring
    rw [hsub, abs_of_nonneg (sub_nonneg.mpr hone)]
    have hle : 1 / 2 ≤ f := not_lt.mp fun hf => h (.inl (hlt.mp hf))
    refine ⟨by linarith, fun heq => Nat.even_iff.mpr ?_⟩
    have hodd := not_and.mp (fun hf => h (.inr hf)) (htie.mp (by linarith))
    omega

-- An integer that is within a half of a number is nearest to it.
theorem half_le_abs_sub (h : |(m : ℚ) - x| ≤ 1 / 2) (hne : k ≠ m) : 1 / 2 ≤ |(k : ℚ) - x| := by
  have hone : (1 : ℚ) ≤ |(k : ℚ) - m| := by
    exact_mod_cast Int.one_le_abs (sub_ne_zero.mpr (Nat.cast_injective.ne hne))
  have htriangle := abs_sub_le (k : ℚ) x m
  rw [abs_sub_comm x] at htriangle
  linarith

theorem abs_sub_le_of_half (h : |(m : ℚ) - x| ≤ 1 / 2) (k : ℕ) : |(m : ℚ) - x| ≤ |(k : ℚ) - x| := by
  by_cases hk : k = m
  case pos => rw [hk]
  case neg => exact h.trans (half_le_abs_sub h hk)

end Division

section Scale

variable {n d m : ℕ} {e : ℤ} {v z : ℚ}

theorem descale_pos (n : ℕ) (hd : 0 < d) (e : ℤ) : 0 < (descale n d e).2 :=
  Nat.mul_pos hd (Nat.pow_pos two_pos)

theorem descale_div (n d : ℕ) (e : ℤ) :
    ((descale n d e).1 : ℚ) / (descale n d e).2 = n / d / 2 ^ e := by
  rw [← pow_toNat_div, div_div_eq_mul_div, div_mul_eq_mul_div, div_div]
  simp [descale]

theorem descale_le_iff (n : ℕ) (hd : 0 < d) (e : ℤ) :
    (descale n d e).2 ≤ (descale n d e).1 ↔ (2 : ℚ) ^ e ≤ n / d := by
  have hpos : (0 : ℚ) < (descale n d e).2 := Nat.cast_pos.mpr (descale_pos n hd e)
  rw [← one_le_div (two_zpow_pos e), ← descale_div, one_le_div hpos, Nat.cast_le]

-- The logarithms of numerator and denominator differ by that of the ratio, or by one more.
theorem div_lt_two_zpow (n : ℕ) (hd : 0 < d) :
    (n : ℚ) / d < 2 ^ ((n.log2 : ℤ) - d.log2 + 1) := by
  have hn : (n : ℚ) < 2 ^ (n.log2 + 1) := by exact_mod_cast Nat.lt_log2_self
  have hd : (2 : ℚ) ^ d.log2 ≤ d := by exact_mod_cast Nat.log2_self_le hd.ne'
  calc
    (n : ℚ) / d ≤ n / 2 ^ d.log2 := div_le_div_of_nonneg_left n.cast_nonneg (by positivity) hd
    _ < 2 ^ (n.log2 + 1) / 2 ^ d.log2 := div_lt_div_of_pos_right hn (by positivity)
    _ = 2 ^ ((n.log2 : ℤ) - d.log2 + 1) := by
      rw [sub_add_eq_add_sub, zpow_sub₀ two_ne_zero, zpow_natCast]
      rfl

theorem two_zpow_le_div (hn : 0 < n) (hd : 0 < d) :
    (2 : ℚ) ^ ((n.log2 : ℤ) - d.log2 - 1) ≤ n / d := by
  have hn : (2 : ℚ) ^ n.log2 ≤ n := by exact_mod_cast Nat.log2_self_le hn.ne'
  have hlt : (d : ℚ) < 2 ^ (d.log2 + 1) := by exact_mod_cast Nat.lt_log2_self
  have hpos : (0 : ℚ) < d := Nat.cast_pos.mpr hd
  calc
    (2 : ℚ) ^ ((n.log2 : ℤ) - d.log2 - 1) = 2 ^ n.log2 / 2 ^ (d.log2 + 1) := by
      rw [sub_sub, zpow_sub₀ two_ne_zero, zpow_natCast]
      rfl
    _ ≤ 2 ^ n.log2 / d := div_le_div_of_nonneg_left (by positivity) hpos hlt.le
    _ ≤ n / d := div_le_div_of_nonneg_right hn hpos.le

theorem floorLog_spec (hn : 0 < n) (hd : 0 < d) :
    (2 : ℚ) ^ floorLog n d ≤ n / d ∧ n / d < (2 : ℚ) ^ (floorLog n d + 1) := by
  have hlog : floorLog n d =
      if (descale n d (n.log2 - d.log2)).2 ≤ (descale n d (n.log2 - d.log2)).1 then
        (n.log2 : ℤ) - d.log2
      else n.log2 - d.log2 - 1 := rfl
  rw [hlog]
  split
  case isTrue h => exact ⟨(descale_le_iff n hd _).mp h, div_lt_two_zpow n hd⟩
  case isFalse h =>
    rw [sub_add_cancel]
    exact ⟨two_zpow_le_div hn hd, not_le.mp (mt (descale_le_iff n hd _).mpr h)⟩

-- The exponent of the gaps of the grid about a number.
structure IsUlp (v : ℚ) (e : ℤ) : Prop where
  least : -1074 ≤ e
  lt : v < 2 ^ (e + 53)
  le : -1074 < e → 2 ^ (e + 52) ≤ v

theorem isUlp_ulp (hn : 0 < n) (hd : 0 < d) : IsUlp (n / d) (ulp n d) := by
  have ⟨hle, hlt⟩ := floorLog_spec hn hd
  have hulp : ulp n d = max (floorLog n d - 52) (-1074) := rfl
  exact {
    least := by omega
    lt := hlt.trans_le (two_zpow_le (by omega))
    le := fun h => (two_zpow_le (by omega)).trans hle }

namespace IsUlp

theorem scaled_lt (h : IsUlp v e) : v / 2 ^ e < 2 ^ 53 := by
  rw [div_lt_iff₀ (two_zpow_pos e), ← two_zpow_add]
  exact h.lt

theorem le_scaled (h : IsUlp v e) (he : -1074 < e) : 2 ^ 52 ≤ v / 2 ^ e := by
  rw [le_div_iff₀ (two_zpow_pos e), ← two_zpow_add]
  exact h.le he

theorem mantissa_le (h : IsUlp v e) (hm : |(m : ℚ) - v / 2 ^ e| ≤ 1 / 2) : m ≤ 2 ^ 53 := by
  have hlt : (m : ℚ) < (2 ^ 53 + 1 : ℕ) := by
    have := h.scaled_lt
    have := (abs_le.mp hm).2
    push_cast
    linarith
  exact Nat.le_of_lt_succ (Nat.cast_lt.mp hlt)

theorem le_mantissa (h : IsUlp v e) (he : -1074 < e) (hm : |(m : ℚ) - v / 2 ^ e| ≤ 1 / 2) :
    2 ^ 52 ≤ m := by
  have hlt : ((2 ^ 52 : ℕ) : ℚ) < (m + 1 : ℕ) := by
    have := h.le_scaled he
    have := (abs_le.mp hm).1
    push_cast
    linarith
  exact Nat.le_of_lt_succ (Nat.cast_lt.mp hlt)

theorem abs_mul_sub (v a : ℚ) (e : ℤ) : |a * 2 ^ e - v| = |a - v / 2 ^ e| * 2 ^ e := by
  have hpos := two_zpow_pos e
  rw [← abs_of_pos hpos, ← abs_mul, abs_of_pos hpos, sub_mul, div_mul_cancel₀ _ hpos.ne']

theorem abs_mul_sub_le (hm : |(m : ℚ) - v / 2 ^ e| ≤ 1 / 2) (k : ℕ) :
    |(m : ℚ) * 2 ^ e - v| ≤ |(k : ℚ) * 2 ^ e - v| := by
  rw [abs_mul_sub, abs_mul_sub]
  exact mul_le_mul_of_nonneg_right (abs_sub_le_of_half hm k) (two_zpow_pos e).le

-- Where the grid has smaller gaps, its numbers are further away.
theorem multiple_or_lt (h : IsUlp v e) (hm : |(m : ℚ) - v / 2 ^ e| ≤ 1 / 2) (hz : OnGrid z) :
    (∃ k : ℕ, z = k * 2 ^ e) ∨ |(m : ℚ) * 2 ^ e - v| < |z - v| := by
  obtain hk | ⟨he, hlt⟩ := hz.multiple_or_lt e
  case inl => exact .inl hk
  case inr =>
    have hv := h.le he
    refine .inr ?_
    calc
      |(m : ℚ) * 2 ^ e - v| ≤ |((2 ^ 52 : ℕ) : ℚ) * 2 ^ e - v| := abs_mul_sub_le hm _
      _ = v - 2 ^ (e + 52) := by
        have hpow : ((2 ^ 52 : ℕ) : ℚ) * 2 ^ e = 2 ^ (e + 52) := by
          push_cast
          exact (two_zpow_add e 52).symm
        rw [hpow, abs_sub_comm, abs_of_nonneg (sub_nonneg.mpr hv)]
      _ < v - z := sub_lt_sub_left hlt v
      _ = |z - v| := by rw [abs_sub_comm, abs_of_pos (sub_pos.mpr (hlt.trans_le hv))]

-- A mantissa within a half of a number gives what the number is rounded to.
theorem nearest (h : IsUlp v e) (hm : |(m : ℚ) - v / 2 ^ e| ≤ 1 / 2)
    (heven : |(m : ℚ) - v / 2 ^ e| = 1 / 2 → Even m) : Nearest v (m * 2 ^ e) where
  onGrid := onGrid_of_le (h.mantissa_le hm) h.least
  le z hz := by
    obtain ⟨k, rfl⟩ | hlt := h.multiple_or_lt hm hz
    case inl => exact abs_mul_sub_le hm k
    case inr => exact hlt.le
  even z hz hne heq := by
    obtain ⟨k, rfl⟩ | hlt := h.multiple_or_lt hm hz
    case inl =>
      rw [abs_mul_sub, abs_mul_sub] at heq
      have heq := mul_right_cancel₀ (two_zpow_pos e).ne' heq
      have hk := half_le_abs_sub hm fun hk : k = m => hne (by rw [hk])
      exact isEven_of_le (h.mantissa_le hm) h.least (heven (hm.antisymm (hk.trans heq.le)))
    case inr => exact absurd heq hlt.ne'

-- The greatest exponent, and the first number that is too great for it.
theorem lt_overflow_iff (h : IsUlp v e) (hm : |(m : ℚ) - v / 2 ^ e| ≤ 1 / 2) :
    (m : ℚ) * 2 ^ e < 2 ^ 1024 ↔ ¬(971 < e ∨ e = 971 ∧ m = 2 ^ 53) := by
  have hpow : (2 : ℚ) ^ 1024 = (2 ^ 53 : ℕ) * 2 ^ (971 : ℤ) := by
    have hsum : ((1024 : ℕ) : ℤ) = 971 + (53 : ℕ) := by decide
    rw [Nat.cast_pow, Nat.cast_ofNat, ← two_zpow_add, ← hsum, zpow_natCast]
  rw [hpow]
  constructor
  case mp =>
    rintro hlt (he | ⟨rfl, rfl⟩)
    case inl =>
      refine absurd hlt (not_lt.mpr ?_)
      rw [pow_mul_two_zpow]
      exact mul_le_mul (Nat.cast_le.mpr (h.le_mantissa (by omega) hm)) (two_zpow_le (by omega))
        (two_zpow_pos _).le m.cast_nonneg
    case inr => exact lt_irrefl _ hlt
  case mpr =>
    intro hno
    have hle := h.mantissa_le hm
    obtain he | rfl : e < 971 ∨ e = 971 := by omega
    case inl =>
      calc
        (m : ℚ) * 2 ^ e ≤ (2 ^ 53 : ℕ) * 2 ^ e :=
          mul_le_mul_of_nonneg_right (Nat.cast_le.mpr hle) (two_zpow_pos e).le
        _ < (2 ^ 53 : ℕ) * 2 ^ (971 : ℤ) := by
          exact mul_lt_mul_of_pos_left (zpow_lt_zpow_right₀ one_lt_two he) (by positivity)
    case inr => exact mul_two_zpow_lt.mpr (by omega)

end IsUlp

-- A ratio is rounded to the nearest number of the grid, if that is finite.
theorem ofRatio?_nearest (n : ℕ) (hd : 0 < d) : ∃ b : Binary64, Nearest (n / d) b.value ∧
    ofRatio? n d = if b.value < 2 ^ 1024 then some b else none := by
  obtain rfl | hn := Nat.eq_zero_or_pos n
  case inl =>
    refine ⟨⟨0, 0⟩, ?_, ?_⟩
    · simpa [value] using nearest_self (onGrid_of_lt (m := 0) (e := 0) (by decide) (by decide))
    · rw [if_pos (by simp [value])]
      rfl
  case inr =>
    obtain ⟨m, hm⟩ : ∃ m, m = roundDiv (descale n d (ulp n d)).1 (descale n d (ulp n d)).2 :=
      ⟨_, rfl⟩
    have hround : ofRatio? n d =
        if 971 < ulp n d ∨ ulp n d = 971 ∧ m = 2 ^ 53 then none else some ⟨m, ulp n d⟩ :=
      hm ▸ if_neg hn.ne'
    have hu := isUlp_ulp hn hd
    have ⟨hle, heven⟩ := abs_roundDiv_sub_le (descale n d (ulp n d)).1 (descale_pos n hd (ulp n d))
    rw [descale_div, ← hm] at hle heven
    have hfinite : value ⟨m, ulp n d⟩ < 2 ^ 1024 ↔ _ := hu.lt_overflow_iff hle
    refine ⟨⟨m, ulp n d⟩, hu.nearest hle heven, ?_⟩
    rw [hround, if_congr hfinite rfl rfl, ite_not]

theorem floor_eq (b : Binary64) : b.floor = ⌊b.value⌋₊ := by
  rw [value, ← pow_toNat_div, ← mul_div_assoc, floor]
  exact_mod_cast (Nat.floor_div_eq_div (K := ℚ) _ _).symm

end Scale

end Binary64

namespace Decimal

open Binary64

def value (x : Decimal) : ℚ :=
  x.significand * 10 ^ x.exponent

theorem ratio_eq_value (x : Decimal) :
    ((x.significand * Nat.pow 10 x.exponent.toNat : ℕ) : ℚ) / (Nat.pow 10 (-x.exponent).toNat : ℕ) =
      x.value := by
  rw [value, ← pow_toNat_div, ← mul_div_assoc]
  simp

theorem ten_zpow_pos (e : ℤ) : (0 : ℚ) < 10 ^ e :=
  zpow_pos (by norm_num) e

theorem value_nonneg (x : Decimal) : 0 ≤ x.value :=
  mul_nonneg x.significand.cast_nonneg (ten_zpow_pos _).le

-- The places in front of the point give bounds of a number.
theorem value_lt (x : Decimal) : x.value < 10 ^ x.magnitude := by
  have hlt : (x.significand : ℚ) < 10 ^ (Nat.toDigits 10 x.significand).length := by
    exact_mod_cast (Nat.length_toDigits_le_iff (by decide) Nat.length_toDigits_pos).mp le_rfl
  rw [magnitude, zpow_add₀ (by norm_num), zpow_natCast]
  exact mul_lt_mul_of_pos_right hlt (ten_zpow_pos _)

theorem le_value {x : Decimal} (hx : x.significand ≠ 0) : 10 ^ (x.magnitude - 1) ≤ x.value := by
  obtain ⟨k, hk⟩ : ∃ k, (Nat.toDigits 10 x.significand).length = k + 1 :=
    Nat.exists_eq_add_one.mpr Nat.length_toDigits_pos
  have hle : 10 ^ k ≤ x.significand := by
    obtain rfl | hpos := Nat.eq_zero_or_pos k
    case inl => exact Nat.one_le_iff_ne_zero.mpr hx
    case inr =>
      have hdigits := Nat.length_toDigits_le_iff (n := x.significand) (by decide : 1 < 10) hpos
      exact not_lt.mp fun hlt => absurd (hdigits.mpr hlt) (by omega)
  have hmagnitude : x.magnitude - 1 = k + x.exponent := by
    rw [magnitude, hk]
    omega
  rw [hmagnitude, zpow_add₀ (by norm_num), zpow_natCast]
  exact mul_le_mul_of_nonneg_right (by exact_mod_cast hle) (ten_zpow_pos _).le

-- Numbers with so many places are too great, and those with so few are rounded to zero.
theorem two_pow_le_ten_zpow {e : ℤ} (he : 310 ≤ e) : (2 : ℚ) ^ 1024 ≤ 10 ^ e := by
  calc
    (2 : ℚ) ^ 1024 ≤ 2 ^ (205 * 5) := pow_le_pow_right₀ one_le_two (by decide)
    _ = (2 ^ 205) ^ 5 := pow_mul 2 205 5
    _ ≤ (10 ^ 62) ^ 5 := pow_le_pow_left₀ (by positivity) (by norm_num) 5
    _ = 10 ^ (310 : ℤ) := by rw [← pow_mul]; exact (zpow_natCast 10 310).symm
    _ ≤ 10 ^ e := zpow_le_zpow_right₀ (by norm_num) he

theorem ten_zpow_le_two_zpow : (10 : ℚ) ^ (-330 : ℤ) ≤ 2 ^ (-1075 : ℤ) := by
  have hle : (2 : ℚ) ^ 1075 ≤ 10 ^ 330 := by
    calc
      (2 : ℚ) ^ 1075 = (2 ^ 215) ^ 5 := pow_mul 2 215 5
      _ ≤ (10 ^ 66) ^ 5 := pow_le_pow_left₀ (by positivity) (by norm_num) 5
      _ = 10 ^ 330 := (pow_mul 10 66 5).symm
  exact inv_anti₀ (by positivity) hle

theorem nearest_zero {v : ℚ} (hv : 0 ≤ v) (hle : v ≤ 2 ^ (-1075 : ℤ)) : Nearest v 0 := by
  have hu : IsUlp v (-1074) := {
    least := le_rfl
    lt := hle.trans_lt (zpow_lt_zpow_right₀ one_lt_two (by decide))
    le := fun h => absurd h (lt_irrefl _) }
  have hhalf : |((0 : ℕ) : ℚ) - v / 2 ^ (-1074 : ℤ)| ≤ 1 / 2 := by
    rw [Nat.cast_zero, zero_sub, abs_neg, abs_of_nonneg (div_nonneg hv (two_zpow_pos _).le),
      div_le_iff₀ (two_zpow_pos _)]
    refine hle.trans_eq ?_
    rw [one_div, ← zpow_neg_one, ← zpow_add₀ two_ne_zero]
    rfl
  simpa using hu.nearest hhalf fun _ => Even.zero

-- A numeral is rounded to the nearest number of the grid, if that is finite.
theorem toBinary64?_nearest (x : Decimal) : ∃ b : Binary64, Nearest x.value b.value ∧
    x.toBinary64? = if b.value < 2 ^ 1024 then some b else none := by
  have hpos : 0 < Nat.pow 10 (-x.exponent).toNat := Nat.pow_pos (by decide)
  obtain ⟨b, hb, hround⟩ := ofRatio?_nearest (x.significand * Nat.pow 10 x.exponent.toNat) hpos
  rw [ratio_eq_value] at hb
  rw [toBinary64?]
  split
  case isTrue h =>
    have hsmall : x.value ≤ 2 ^ (-1075 : ℤ) := by
      obtain hx | hx := h
      case inl => simp [value, hx]
      case inr =>
        exact (x.value_lt.le.trans (zpow_le_zpow_right₀ (by norm_num) hx.le)).trans
          ten_zpow_le_two_zpow
    have hzero : Binary64.value ⟨0, 0⟩ = 0 := by simp [Binary64.value]
    refine ⟨⟨0, 0⟩, hzero ▸ nearest_zero x.value_nonneg hsmall, ?_⟩
    rw [if_pos (hzero ▸ by positivity)]
  case isFalse h =>
    rw [not_or] at h
    split
    case isTrue hgreat =>
      have hle : 2 ^ 1024 ≤ b.value := (nearest_self (onGrid_pow 1024)).mono hb
        ((two_pow_le_ten_zpow (by omega)).trans (le_value h.1))
      exact ⟨b, hb, (if_neg hle.not_gt).symm⟩
    case isFalse => exact ⟨b, hb, hround⟩

end Decimal

end Imp
