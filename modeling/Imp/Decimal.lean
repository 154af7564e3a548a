/-!
Decimal numbers and their rounding to binary64: to the nearest number `m * 2 ^ e` with `m < 2 ^ 53`
and `-1074 ≤ e`, and of two nearest ones to the even `m`.
-/

namespace Imp

-- The number `significand * 10 ^ exponent`.
structure Decimal where
  significand : Nat
  exponent : Int
deriving DecidableEq, Repr, Inhabited

-- The number `mantissa * 2 ^ exponent`.
structure Binary64 where
  mantissa : Nat
  exponent : Int
deriving DecidableEq, Repr, Inhabited

namespace Binary64

-- The integer nearest to `n / d`, the even one of two.
def roundDiv (n d : Nat) : Nat :=
  if 2 * (n % d) < d ∨ 2 * (n % d) = d ∧ (n / d) % 2 = 0 then n / d else n / d + 1

-- The ratio `n / (d * 2 ^ e)`.
def descale (n d : Nat) (e : Int) : Nat × Nat :=
  (n * Nat.pow 2 (-e).toNat, d * Nat.pow 2 e.toNat)

-- The greatest `k` with `2 ^ k ≤ n / d`.
def floorLog (n d : Nat) : Int :=
  let k : Int := n.log2 - d.log2
  let (n', d') := descale n d k
  if d' ≤ n' then k else k - 1

-- The exponent to which a ratio is rounded.
def ulp (n d : Nat) : Int :=
  max (floorLog n d - 52) (-1074)

-- The rounding of a ratio, if it is finite.
def ofRatio? (n d : Nat) : Option Binary64 :=
  if n = 0 then some ⟨0, 0⟩
  else
    let e := ulp n d
    let (n', d') := descale n d e
    let m := roundDiv n' d'
    if 971 < e ∨ e = 971 ∧ m = Nat.pow 2 53 then none else some ⟨m, e⟩

-- The product, rounded, if it is finite.
def mul? (a b : Binary64) : Option Binary64 :=
  let (n, d) := descale (a.mantissa * b.mantissa) 1 (-(a.exponent + b.exponent))
  ofRatio? n d

-- A number times a power of ten, both rounded before they are multiplied, if it is finite.
def timesPowerOfTen? (n exponent : Nat) : Option Binary64 := do
  (← ofRatio? n 1).mul? (← ofRatio? (Nat.pow 10 exponent) 1)

def floor (b : Binary64) : Nat :=
  b.mantissa * Nat.pow 2 b.exponent.toNat / Nat.pow 2 (-b.exponent).toNat

end Binary64

namespace Decimal

-- The sign at the head of a text, plus if there is none, and the text behind it.
def sign : List Char → Int × List Char
  | '-' :: cs => (-1, cs)
  | '+' :: cs => (1, cs)
  | cs => (1, cs)

-- The exponent at the head of a text, zero if there is none, and the text behind it.
def exponent? : List Char → Option (Int × List Char)
  | [] => some (0, [])
  | c :: cs =>
    if c = 'e' || c = 'E' then
      let ds := (sign cs).2.takeWhile Char.isDigit
      if ds.isEmpty then none
      else some ((sign cs).1 * Nat.ofDigitChars 10 ds 0, (sign cs).2.dropWhile Char.isDigit)
    else some (0, c :: cs)

-- The number with these digits before and behind the point, times a power of ten.
def ofDigits (whole fraction : List Char) (exponent : Int) : Decimal where
  significand := Nat.ofDigitChars 10 (whole ++ fraction) 0
  exponent := exponent - fraction.length

-- The number of places before the point, negative for zeros behind it.
def magnitude (d : Decimal) : Int :=
  (Nat.toDigits 10 d.significand).length + d.exponent

-- The rounding to binary64, if it is finite. Numbers from `10 ^ 310` on are not, and numbers below
-- `10 ^ (-330)` are less than half of the least positive one, so no larger power of ten is
-- computed.
def toBinary64? (d : Decimal) : Option Binary64 :=
  if d.significand = 0 ∨ d.magnitude < -330 then some ⟨0, 0⟩
  else if 310 < d.magnitude then none
  else
    Binary64.ofRatio? (d.significand * Nat.pow 10 d.exponent.toNat)
      (Nat.pow 10 (-d.exponent).toNat)

end Decimal

end Imp
