import Imp.Decimal

/-!
The lexemes of JSON text: brackets, marks and scalars.

A scalar keeps what a document cannot hold but a reader has to tell apart: numbers that are no
integers, numbers too large for binary64, and strings whose escapes stand for no character.
-/

namespace Imp

namespace Json

inductive Numeral
  | int (value : Int)
  | real
  | huge
deriving DecidableEq, Repr, Inhabited

inductive Scalar
  | null
  | bool (value : Bool)
  | num (value : Numeral)
  -- The text is missing if an escape stands for no character.
  | str (value : Option String)
deriving DecidableEq, Repr, Inhabited

inductive Lexeme
  | openArr | closeArr | openObj | closeObj | comma | colon
  | scalar (value : Scalar)
  | bad
deriving DecidableEq, Repr, Inhabited

namespace Lexeme

def isBlank (c : Char) : Bool :=
  c = ' ' || c = '\n' || c = '\r' || c = '\t'

def hexDigit? (c : Char) : Option Nat :=
  if '0' ≤ c && c ≤ '9' then some (c.toNat - '0'.toNat)
  else if 'a' ≤ c && c ≤ 'f' then some (c.toNat - 'a'.toNat + 10)
  else if 'A' ≤ c && c ≤ 'F' then some (c.toNat - 'A'.toNat + 10)
  else none

def hex4? (a b c d : Char) : Option Nat := do
  return (((← hexDigit? a) * 16 + (← hexDigit? b)) * 16 + (← hexDigit? c)) * 16 + (← hexDigit? d)

-- The character that a letter behind a backslash stands for.
def escaped? : Char → Option Char
  | '"' => some '"'
  | '\\' => some '\\'
  | '/' => some '/'
  | 'b' => some '\x08'
  | 'f' => some '\x0c'
  | 'n' => some '\n'
  | 'r' => some '\r'
  | 't' => some '\t'
  | _ => none

-- The code units of a string up to its closing quote, and the text behind that.
def units? : List Char → Option (List Nat × List Char)
  | [] => none
  | '"' :: cs => some ([], cs)
  | '\\' :: 'u' :: a :: b :: c :: d :: cs =>
    match hex4? a b c d, units? cs with
    | some u, some (us, rest) => some (u :: us, rest)
    | _, _ => none
  | '\\' :: e :: cs =>
    match escaped? e, units? cs with
    | some c, some (us, rest) => some (c.toNat :: us, rest)
    | _, _ => none
  | c :: cs =>
    match c = '\\' || c.toNat < 32, units? cs with
    | false, some (us, rest) => some (c.toNat :: us, rest)
    | _, _ => none

def isHigh (u : Nat) : Bool := 0xd800 ≤ u && u < 0xdc00

def isLow (u : Nat) : Bool := 0xdc00 ≤ u && u < 0xe000

-- The characters of code units: surrogates must come in pairs.
def chars? : List Nat → Option (List Char)
  | [] => some []
  | u :: us =>
    if isHigh u then
      match us with
      | v :: us =>
        if isLow v then
          (chars? us).map (Char.ofNat (0x10000 + (u - 0xd800) * 0x400 + (v - 0xdc00)) :: ·)
        else none
      | [] => none
    else if isLow u then none
    else (chars? us).map (Char.ofNat u :: ·)

def string? (cs : List Char) : Option (Lexeme × List Char) := do
  let (us, rest) ← units? cs
  return (scalar (.str ((chars? us).map String.ofList)), rest)

-- The fraction digits at the head of a text, none if it has no point; a point needs digits.
def fraction? : List Char → Option (List Char × List Char)
  | '.' :: cs =>
    let ds := cs.takeWhile Char.isDigit
    if ds.isEmpty then none else some (ds, cs.dropWhile Char.isDigit)
  | cs => some ([], cs)

-- Whole numbers are written without superfluous zeros.
def isWhole : List Char → Bool
  | [] => false
  | ['0'] => true
  | c :: _ => c ≠ '0'

-- Whether the text behind the whole part of a number goes on with a fraction or an exponent.
def isReal : List Char → Bool
  | c :: _ => c = '.' || c = 'e' || c = 'E'
  | [] => false

def maxSignificand : Nat := 18446744073709551615

-- Appends digits to a significand up to the first that does not fit. Their number comes second.
def appendDigits (significand : Nat) : List Char → Nat × Nat
  | [] => (significand, 0)
  | c :: cs =>
    let next := 10 * significand + (c.toNat - '0'.toNat)
    if next ≤ maxSignificand then
      let (result, n) := appendDigits next cs
      (result, n + 1)
    else (significand, 0)

-- Whether a product with a power of ten exceeds binary64. From `10 ^ 309` on the power does so.
def isHuge (significand : Nat) (exponent : Int) : Bool :=
  significand ≠ 0 && 0 < exponent
    && (308 < exponent || (Binary64.timesPowerOfTen? significand exponent.toNat).isNone)

-- The number with these digits before and behind the point, times a power of ten. Digits of the
-- whole part that do not fit the significand count as zeros, those of the fraction are dropped.
def numeral (negative real : Bool) (whole fraction : List Char) (exponent : Int) : Numeral :=
  let (s, n) := appendDigits 0 whole
  let (s', n') := appendDigits s fraction
  if isHuge s' (whole.length - n - n' + exponent) then .huge
  else if real || n < whole.length || negative && s = 0 then .real
  else .int (if negative then -s else s)

-- A number whose sign has been read.
def number? (negative : Bool) (cs : List Char) : Option (Lexeme × List Char) := do
  let whole := cs.takeWhile Char.isDigit
  let rest := cs.dropWhile Char.isDigit
  let (frac, rest') ← fraction? rest
  let (e, rest'') ← Decimal.exponent? rest'
  if !isWhole whole then none
  else return (scalar (.num (numeral negative (isReal rest) whole frac e)), rest'')

-- The rest of a word whose first letter has been read.
def word? (w : List Char) (value : Scalar) (cs : List Char) : Option (Lexeme × List Char) :=
  if w.isPrefixOf cs then some (scalar value, cs.drop w.length) else none

-- The lexeme at the head of a text that starts with a character, and the text behind it.
def first? (c : Char) (cs : List Char) : Option (Lexeme × List Char) :=
  match c with
  | '[' => some (openArr, cs)
  | ']' => some (closeArr, cs)
  | '\x7b' => some (openObj, cs)
  | '\x7d' => some (closeObj, cs)
  | ',' => some (comma, cs)
  | ':' => some (colon, cs)
  | '"' => string? cs
  | 'n' => word? ['u', 'l', 'l'] .null cs
  | 't' => word? ['r', 'u', 'e'] (.bool true) cs
  | 'f' => word? ['a', 'l', 's', 'e'] (.bool false) cs
  | '-' => number? true cs
  | c => number? false (c :: cs)

section Length

variable {c : Char} {cs rest : List Char} {l : Lexeme}

theorem length_dropWhile_le (p : Char → Bool) (cs : List Char) :
    (cs.dropWhile p).length ≤ cs.length :=
  (List.dropWhile_suffix p).length_le

theorem length_units? {us} (h : units? cs = some (us, rest)) : rest.length < cs.length := by
  fun_induction units? cs generalizing us <;> try simp only [List.length_cons]
  all_goals grind

theorem length_string? (h : string? cs = some (l, rest)) : rest.length < cs.length := by
  simp only [string?, Option.bind_eq_bind, Option.bind_eq_some_iff] at h
  have ⟨_, hu, h⟩ := h
  cases h
  exact length_units? hu

theorem length_fraction? {ds} (h : fraction? cs = some (ds, rest)) : rest.length ≤ cs.length := by
  unfold fraction? at h
  split at h
  case h_1 =>
    have := length_dropWhile_le Char.isDigit
    grind
  case h_2 => cases h; exact Nat.le_refl _

theorem length_exponent? {e} (h : Decimal.exponent? cs = some (e, rest)) :
    rest.length ≤ cs.length := by
  cases cs with
  | nil => cases h; exact Nat.le_refl _
  | cons c cs =>
    have := length_dropWhile_le Char.isDigit (Decimal.sign cs).2
    have : (Decimal.sign cs).2.length ≤ cs.length := by unfold Decimal.sign; split <;> simp
    grind [Decimal.exponent?]

theorem length_number? {negative} (h : number? negative cs = some (l, rest)) :
    rest.length < cs.length := by
  simp only [number?, Option.bind_eq_bind, Option.bind_eq_some_iff] at h
  have ⟨_, hf, _, he, h⟩ := h
  split at h
  case isTrue => cases h
  case isFalse hw =>
    cases h
    have := length_fraction? hf
    have := length_exponent? he
    have := congrArg List.length (List.takeWhile_append_dropWhile (p := Char.isDigit) (l := cs))
    have : cs.takeWhile Char.isDigit ≠ [] := fun h => hw (by simp [h, isWhole])
    have := List.length_pos_iff.mpr this
    grind

theorem length_word? {w v} (h : word? w v cs = some (l, rest)) : rest.length ≤ cs.length := by
  simp only [word?] at h
  split at h <;> cases h
  simp

theorem length_first? (h : first? c cs = some (l, rest)) : rest.length ≤ cs.length := by
  unfold first? at h
  split at h
  case h_7 => exact Nat.le_of_lt (length_string? h)
  case h_8 | h_9 | h_10 => exact length_word? h
  case h_11 => exact Nat.le_of_lt (length_number? h)
  case h_12 => exact Nat.le_of_lt_succ (length_number? h)
  all_goals cases h; exact Nat.le_refl _

end Length

-- The lexemes of a text, up to the first place where there is none.
def all : List Char → List Lexeme
  | [] => []
  | c :: cs =>
    if isBlank c then all cs
    else
      match h : first? c cs with
      | none => [bad]
      | some (l, rest) =>
        have := length_first? h
        l :: all rest
termination_by cs => cs.length

end Lexeme

end Json

end Imp
