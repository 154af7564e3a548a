import Imp.Program

/-!
The names that a program introduces, each once, in the order of their first appearance.
-/

namespace Imp

-- The statements that introduce a name.
inductive Introduces
  | declarations
  | declarationsAndAssignments
deriving DecidableEq, Repr, Inhabited

mutual

-- The names that a statement introduces, inner blocks included, as often as it does.
def Stmt.introduced (mode : Introduces) : Stmt → List String
  | .declare x _ => [x]
  | .assign x _ => if mode = .declarationsAndAssignments then [x] else []
  | .loop _ b => Program.introduced mode b
  | .branch _ t none => Program.introduced mode t
  | .branch _ t (some f) => Program.introduced mode t ++ Program.introduced mode f

def Program.introduced (mode : Introduces) : Program → List String
  | [] => []
  | s :: p => s.introduced mode ++ Program.introduced mode p

end

def Program.names (mode : Introduces) (p : Program) : List String :=
  (p.introduced mode).eraseDups

end Imp
