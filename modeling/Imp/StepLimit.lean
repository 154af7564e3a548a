import Imp.Decimal

/-!
Step limits, and their reading from text.

A limit is given as a decimal number. It is rounded to binary64, its fraction is dropped, and it
must be at least one; from `2 ^ 64` on it counts as `2 ^ 64 - 1`.
-/

namespace Imp

inductive LimitError
  | notPositive
  | unreadable (text : String)
deriving DecidableEq, Repr, Inhabited

def LimitError.message : LimitError → String
  | notPositive => "invalid argument: step limit must be positive"
  | unreadable text => "invalid argument: invalid step limit: " ++ text

namespace StepLimit

-- The characters of the property White_Space.
def isWhiteSpace (c : Char) : Bool :=
  let n := c.toNat
  (0x09 ≤ n && n ≤ 0x0d) || n = 0x20 || n = 0x85 || n = 0xa0 || n = 0x1680
    || (0x2000 ≤ n && n ≤ 0x200a) || n = 0x2028 || n = 0x2029 || n = 0x202f || n = 0x205f
    || n = 0x3000

def trim (cs : List Char) : List Char :=
  (((cs.dropWhile isWhiteSpace).reverse).dropWhile isWhiteSpace).reverse

-- The fraction digits behind a point, and the text behind them.
def fraction : List Char → List Char × List Char
  | '.' :: cs => (cs.takeWhile Char.isDigit, cs.dropWhile Char.isDigit)
  | cs => ([], cs)

-- An unsigned numeral: digits with at most one point among them or at their end, and an exponent.
def numeral? (cs : List Char) : Option Decimal :=
  let whole := cs.takeWhile Char.isDigit
  let (frac, rest) := fraction (cs.dropWhile Char.isDigit)
  match Decimal.exponent? rest with
  | some (e, []) => if whole.isEmpty && frac.isEmpty then none else some (.ofDigits whole frac e)
  | _ => none

-- A numeral that may have a plus sign. Nothing with a minus sign is at least one.
def positive? : List Char → Option Decimal
  | '+' :: cs => numeral? cs
  | cs => numeral? cs

def greatest : Nat := Nat.pow 2 64 - 1

def default : Nat := 10000

def check (n : Nat) : Except LimitError Nat :=
  if n = 0 then .error .notPositive else .ok n

def ofText (text : String) : Except LimitError Nat :=
  match (positive? (trim text.toList)).bind Decimal.toBinary64? with
  | some b => if b.floor = 0 then .error (.unreadable text) else .ok (min b.floor greatest)
  | none => .error (.unreadable text)

end StepLimit

end Imp
