import Imp.Proofs.Exact
import Imp.Proofs.Python.Syntax
import Mathlib.Computability.StateTransition

/-!
How the statements of a Python text are executed, on integers without bounds.
-/

open StateTransition

namespace Imp

namespace Python

-- The values that are bound to names.
abbrev Vars := String → Option Int

def Expr.eval? (σ : Vars) : Expr → Option Int
  | num n => some n
  | name x => σ x
  | bin op l r => do return op.exact (← l.eval? σ) (← r.eval? σ)

def Test.eval? (σ : Vars) (t : Test) : Option Bool := do
  return t.rel.exact (← t.left.eval? σ) (← t.right.eval? σ)

structure State where
  vars : Vars
  todo : List Stmt

namespace State

-- A name that is not bound stops the machine, and so does the end of what there is to do.
def step? : State → Option State
  | ⟨_, []⟩ => none
  | ⟨σ, .pass :: k⟩ => some ⟨σ, k⟩
  | ⟨σ, .assign x e :: k⟩ =>
    (e.eval? σ).map fun v => ⟨fun y => if y = x then some v else σ y, k⟩
  | ⟨σ, .loop t b :: k⟩ =>
    (t.eval? σ).map fun r => ⟨σ, (if r then b ++ [.loop t b] else []) ++ k⟩
  | ⟨σ, .branch t b f :: k⟩ =>
    (t.eval? σ).map fun r => ⟨σ, (if r then b else f.getD []) ++ k⟩

end State

-- Without any names at first, the statements come to their end, and leave these variables.
def Ends (ss : List Stmt) (σ : Vars) : Prop :=
  Reaches State.step? ⟨fun _ => none, ss⟩ ⟨σ, []⟩

end Python

end Imp
