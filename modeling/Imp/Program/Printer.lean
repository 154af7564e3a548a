import Imp.Program

/-!
The text of expressions and conditions.

An operand is put in parentheses exactly when its precedence is below what its place asks for. The
right operand's place asks for one more than the left one's, so operators of one precedence group to
the left.
-/

namespace Imp

-- The text of an expression whose place asks for the given precedence.
def Expr.text : Nat → Expr → String
  | _, num v => toString v.toInt
  | _, var x => x
  | outer, bin op l r =>
    let inner := l.text op.precedence ++ " " ++ op.symbol ++ " " ++ r.text (op.precedence + 1)
    if op.precedence < outer then "(" ++ inner ++ ")" else inner

def Cond.text (c : Cond) : String :=
  c.left.text 0 ++ " " ++ c.rel.symbol ++ " " ++ c.right.text 0

end Imp
