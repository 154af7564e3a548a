import Imp.Program

/-!
The statements of a program, inner blocks included, and the expressions inside of expressions.
-/

namespace Imp

-- An expression and everything inside of it.
def Expr.parts : Expr → List Expr
  | num v => [num v]
  | var x => [var x]
  | bin op l r => bin op l r :: (l.parts ++ r.parts)

theorem Expr.mem_parts_self (e : Expr) : e ∈ e.parts := by
  cases e <;> simp [parts]

-- The expressions that a statement itself evaluates.
def Stmt.exprs : Stmt → List Expr
  | declare _ e | assign _ e => [e]
  | loop test _ | branch test _ _ => [test.left, test.right]

def Stmt.test? : Stmt → Option Cond
  | loop test _ | branch test _ _ => some test
  | _ => none

-- The blocks of a statement, without those inside of them.
def Stmt.blocks : Stmt → List Program
  | loop _ b | branch _ b none => [b]
  | branch _ t (some f) => [t, f]
  | _ => []

mutual

def Stmt.parts : Stmt → List Stmt
  | .declare x e => [.declare x e]
  | .assign x e => [.assign x e]
  | .loop test b => .loop test b :: Program.parts b
  | .branch test t none => .branch test t none :: Program.parts t
  | .branch test t (some f) =>
    .branch test t (some f) :: (Program.parts t ++ Program.parts f)

def Program.parts : Program → List Stmt
  | [] => []
  | s :: p => s.parts ++ Program.parts p

end

theorem Stmt.mem_parts_self (s : Stmt) : s ∈ s.parts := by
  match s with
  | declare .. | assign .. | loop .. | branch _ _ none | branch _ _ (some _) => simp [parts]

theorem Stmt.parts_eq (s : Stmt) : s.parts = s :: s.blocks.flatMap Program.parts := by
  match s with
  | declare .. | assign .. | loop .. | branch _ _ none | branch _ _ (some _) =>
    simp [parts, blocks]

namespace Program

@[simp]
theorem parts_append (p q : Program) : parts (p ++ q) = p.parts ++ q.parts := by
  induction p with
  | nil => simp [parts]
  | cons s p ih => simp [parts, ih]

-- No statement is a conditional, at any depth.
def Unconditional (p : Program) : Prop :=
  ∀ test t f, .branch test t f ∉ p.parts

theorem Unconditional.of_subset {p q : Program} (h : p.Unconditional) (hq : q.parts ⊆ p.parts) :
    q.Unconditional :=
  fun test t f hb => h test t f (hq hb)

end Program

end Imp
