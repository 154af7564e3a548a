import Imp.Program.Names
import Imp.Run
import Imp.Wat.Module

/-!
WebAssembly code of programs.

Every declared name becomes a local; any other name is refused. A loop becomes a block around a
loop, left through the block's label when the test fails. Labels are numbered in the order of their
loops.
-/

namespace Imp

namespace Wat

structure Options where
  indent : String := "  "
  function : String := "_start"
  exported : Option String := some "_start"
  result : Option String := none
deriving DecidableEq, Repr, Inhabited

-- A name must be among the declared ones.
def resolve (declared : List String) (x : String) : Except Undeclared Unit :=
  if x ∈ declared then .ok () else .error ⟨x⟩

end Wat

open Wat (resolve)

-- Code that leaves the value of an expression on the stack.
def Expr.wat (declared : List String) : Expr → Except Undeclared Wat.Code
  | num v => .ok [.const v]
  | var x => do
    resolve declared x
    return [.get x]
  | bin op l r => do
    let l ← l.wat declared
    let r ← r.wat declared
    return l ++ r ++ [.arith op]

def Cond.wat (declared : List String) (c : Cond) : Except Undeclared Wat.Code := do
  let l ← c.left.wat declared
  let r ← c.right.wat declared
  return l ++ r ++ [.compare c.rel]

mutual

-- The code of a statement, and the last label number used after it.
def Stmt.wat (declared : List String) (labels : Nat) : Stmt → Except Undeclared (Wat.Code × Nat)
  | .declare x e => do
    let e ← e.wat declared
    return (e ++ [.set x], labels)
  | .assign x e => do
    resolve declared x
    let e ← e.wat declared
    return (e ++ [.set x], labels)
  | .loop c b => do
    let exit := .exit (labels + 1)
    let again := .loop (labels + 2)
    let c ← c.wat declared
    let (b, labels) ← Program.wat declared (labels + 2) b
    return ([.block exit [.loop again (c ++ [.eqz, .brIf exit] ++ b ++ [.br again])]], labels)
  | .branch c t none => do
    let c ← c.wat declared
    let (t, labels) ← Program.wat declared labels t
    return (c ++ [.branch t none], labels)
  | .branch c t (some f) => do
    let c ← c.wat declared
    let (t, labels) ← Program.wat declared labels t
    let (f, labels) ← Program.wat declared labels f
    return (c ++ [.branch t (some f)], labels)

def Program.wat (declared : List String) (labels : Nat) :
    Program → Except Undeclared (Wat.Code × Nat)
  | [] => .ok ([], labels)
  | s :: p => do
    let (s, labels) ← s.wat declared labels
    let (p, labels) ← Program.wat declared labels p
    return (s ++ p, labels)

end

def Program.watModule (o : Wat.Options) (p : Program) : Except Undeclared Wat.Module := do
  let declared := p.names .declarations
  o.result.forM (resolve declared)
  let (code, _) ← p.wat declared 0
  return ⟨o.function, o.exported, o.result, declared, code⟩

def Program.watText (o : Wat.Options) (p : Program) : Except Undeclared String := do
  return (← p.watModule o).text o.indent

end Imp
