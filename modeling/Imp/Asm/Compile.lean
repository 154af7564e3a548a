import Imp.Asm.Code
import Imp.Program.Names

/-!
Assembly code of programs. Conditionals are refused.

Every name that is declared or assigned gets a cell. Decreasing a variable by one stops at zero,
since the machine has no negative numbers.
-/

namespace Imp

namespace Asm

-- Why there is no assembly for a program.
inductive Unsupported
  | conditional
deriving DecidableEq, Repr, Inhabited

def Unsupported.message : Unsupported → String
  | conditional => "assembly backend does not support If statements"

-- With the left operand in `B` and the right one in `A`, leaves the result in `A`.
def arith : Operator → Code
  | .add => [.instr (.add .a .b)]
  | .sub =>
    [.instr (.load .c (.register .b)), .instr (.sub .c .a), .instr (.load .a (.register .c))]
  | .mul =>
    [.instr (.load .c (.register .a)), .instr (.load .a (.register .b)), .instr (.mul .c)]

-- The jump that is taken when a relation does not hold.
def inverse : Relation → Jump
  | .gt => .belowOrEqual
  | .lt => .aboveOrEqual
  | .ge => .below
  | .le => .above
  | .eq => .notEqual
  | .ne => .equal

end Asm

-- Code that leaves the value of an expression in `A`.
def Expr.asm : Expr → Asm.Code
  | num v => [.instr (.load .a (.const v))]
  | var x => [.instr (.load .a (.cell x))]
  | bin op l r => l.asm ++ .instr (.push .a) :: r.asm ++ .instr (.pop .b) :: Asm.arith op

-- Code that jumps to a label when a condition does not hold.
def Cond.asmExit (c : Cond) (exit : Asm.Label) : Asm.Code :=
  c.left.asm ++ .instr (.load .b (.register .a)) :: c.right.asm
    ++ [.instr (.cmp .b (.register .a)), .instr (.jump (Asm.inverse c.rel) exit)]

namespace Asm

-- Code that decreases a cell unless it is zero.
def decrement (x : String) (number : Nat) : Code :=
  [.note x, .instr (.load .a (.cell x)), .instr (.cmp .a (.const 0)),
    .instr (.jump .equal (.decremented x number)), .instr (.dec .a), .instr (.store x .a),
    .label (.decremented x number)]

end Asm

mutual

-- The code of a statement, and the last label number used after it.
def Stmt.asm (labels : Nat) : Stmt → Except Asm.Unsupported (Asm.Code × Nat)
  | .declare x e => .ok (e.asm ++ [.instr (.store x .a)], labels)
  | .assign x e =>
    if e = .bin .sub (.var x) (.num 1) then .ok (Asm.decrement x (labels + 1), labels + 1)
    else .ok (e.asm ++ [.instr (.store x .a)], labels)
  | .loop c b => do
    let again := .loopStart (labels + 1)
    let exit := .loopEnd (labels + 2)
    let (b, labels) ← Program.asm (labels + 2) b
    return (.label again :: c.asmExit exit ++ b
      ++ [.instr (.jump .always again), .label exit], labels)
  | .branch .. => .error .conditional

def Program.asm (labels : Nat) : Program → Except Asm.Unsupported (Asm.Code × Nat)
  | [] => .ok ([], labels)
  | s :: p => do
    let (s, labels) ← s.asm labels
    let (p, labels) ← Program.asm labels p
    return (s ++ p, labels)

end

-- The whole assembly program: a jump over the cells, the cells, and the code.
def Program.asmCode (p : Program) : Except Asm.Unsupported Asm.Code := do
  let (code, _) ← p.asm 0
  return .instr (.jump .always .start) :: (p.names .declarationsAndAssignments).map .cell
    ++ [.blank, .label .start] ++ code ++ [.instr .halt]

def Program.asmText (p : Program) : Except Asm.Unsupported String := do
  return (← p.asmCode).text

end Imp
