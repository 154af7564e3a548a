import Imp.Operator

/-!
Expressions, conditions, statements and programs.

A program is the list of its statements. `Program.induction` is the induction principle of
programs: what holds of the empty program, and of a statement in front of a program when it holds
of the program and of every block inside the statement, holds of all programs.
-/

namespace Imp

inductive Expr
  | num (value : Int32)
  | var (name : String)
  | bin (op : Operator) (left right : Expr)
deriving DecidableEq, Repr, Inhabited

-- The precedence of the outermost operator; number and variable bind tighter than any operator.
def Expr.precedence : Expr → Nat
  | num _ | var _ => 99
  | bin op _ _ => op.precedence

structure Cond where
  rel : Relation
  left : Expr
  right : Expr
deriving DecidableEq, Repr, Inhabited

inductive Stmt
  | declare (name : String) (value : Expr)
  | assign (name : String) (value : Expr)
  | loop (test : Cond) (body : List Stmt)
  | branch (test : Cond) (consequent : List Stmt) (alternate : Option (List Stmt))
deriving Repr, Inhabited

abbrev Program := List Stmt

-- The name that a statement goes by in reports and written programs.
def Stmt.kindName : Stmt → String
  | declare .. => "VarDeclaration"
  | assign .. => "Assignment"
  | loop .. => "While"
  | branch .. => "If"

theorem Program.induction {P : Program → Prop} (nil : P [])
    (declare : ∀ x e k, P k → P (.declare x e :: k))
    (assign : ∀ x e k, P k → P (.assign x e :: k))
    (loop : ∀ c b k, P b → P k → P (.loop c b :: k))
    (branch : ∀ c t k, P t → P k → P (.branch c t none :: k))
    (branchElse : ∀ c t f k, P t → P f → P k → P (.branch c t (some f) :: k)) :
    ∀ p, P p := by
  intro p
  refine Stmt.rec_1 (motive_1 := fun s => ∀ k, P k → P (s :: k)) (motive_2 := P)
    (motive_3 := fun o => ∀ f, o = some f → P f) ?_ ?_ ?_ ?_ nil ?_ ?_ ?_ p
  case refine_1 => exact declare
  case refine_2 => exact assign
  case refine_3 => exact fun c b hb k hk => loop c b k hb hk
  case refine_4 =>
    intro c t f ht hf k hk
    cases f with
    | none => exact branch c t k ht hk
    | some f => exact branchElse c t f k ht (hf f rfl) hk
  case refine_5 => exact fun s k hs hk => hs k hk
  case refine_6 => exact fun f h => nomatch h
  case refine_7 => exact fun f hf g h => Option.some.inj h ▸ hf

mutual

def Stmt.decEq : (s t : Stmt) → Decidable (s = t)
  | .declare x e, .declare y f => decidable_of_iff (x = y ∧ e = f) (by simp)
  | .assign x e, .assign y f => decidable_of_iff (x = y ∧ e = f) (by simp)
  | .loop c b, .loop d b' =>
    have := Program.decEq b b'
    decidable_of_iff (c = d ∧ b = b') (by simp)
  | .branch c t none, .branch d t' none =>
    have := Program.decEq t t'
    decidable_of_iff (c = d ∧ t = t') (by simp)
  | .branch c t (some f), .branch d t' (some f') =>
    have := Program.decEq t t'
    have := Program.decEq f f'
    decidable_of_iff (c = d ∧ t = t' ∧ f = f') (by simp)
  | .branch _ _ none, .branch _ _ (some _) | .branch _ _ (some _), .branch _ _ none
  | .declare .., .assign .. | .declare .., .loop .. | .declare .., .branch ..
  | .assign .., .declare .. | .assign .., .loop .. | .assign .., .branch ..
  | .loop .., .declare .. | .loop .., .assign .. | .loop .., .branch ..
  | .branch .., .declare .. | .branch .., .assign .. | .branch .., .loop .. => isFalse (by simp)

def Program.decEq : (p q : Program) → Decidable (p = q)
  | [], [] => isTrue rfl
  | s :: p, t :: q =>
    have := Stmt.decEq s t
    have := Program.decEq p q
    decidable_of_iff (s = t ∧ p = q) (by simp)
  | [], _ :: _ | _ :: _, [] => isFalse (by simp)

end

instance : DecidableEq Stmt := Stmt.decEq

end Imp
