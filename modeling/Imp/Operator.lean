/-!
The operators of expressions and the relations of conditions.

Values are 32-bit two's complement integers. An operator wraps around on overflow, a relation
compares with the sign.
-/

namespace Imp

inductive Operator
  | add | sub | mul
deriving DecidableEq, Repr, Inhabited

namespace Operator

def all : List Operator := [add, sub, mul]

def symbol : Operator → String
  | add => "+"
  | sub => "-"
  | mul => "*"

def ofSymbol? (s : String) : Option Operator :=
  all.find? (·.symbol = s)

-- How tightly an operator binds its operands.
def precedence : Operator → Nat
  | add | sub => 1
  | mul => 2

def apply : Operator → Int32 → Int32 → Int32
  | add, a, b => a + b
  | sub, a, b => a - b
  | mul, a, b => a * b

theorem ofSymbol?_symbol (op : Operator) : ofSymbol? op.symbol = some op := by
  cases op <;> decide

end Operator

inductive Relation
  | gt | lt | ge | le | eq | ne
deriving DecidableEq, Repr, Inhabited

namespace Relation

def all : List Relation := [gt, lt, ge, le, eq, ne]

def symbol : Relation → String
  | gt => ">"
  | lt => "<"
  | ge => ">="
  | le => "<="
  | eq => "=="
  | ne => "!="

def ofSymbol? (s : String) : Option Relation :=
  all.find? (·.symbol = s)

def holds : Relation → Int32 → Int32 → Bool
  | gt, a, b => b < a
  | lt, a, b => a < b
  | ge, a, b => b ≤ a
  | le, a, b => a ≤ b
  | eq, a, b => a == b
  | ne, a, b => a != b

theorem ofSymbol?_symbol (r : Relation) : ofSymbol? r.symbol = some r := by
  cases r <;> decide

end Relation

end Imp
