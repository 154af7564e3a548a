import Imp.Json
import Imp.Program

/-!
Programs as JSON documents. Statements, expressions, assigned names and whole programs carry their
kind in the field `type`, which comes first; conditions carry none.
-/

namespace Imp

def Expr.json : Expr → Json
  | num v => .obj [("type", .str "NumberLiteral"), ("value", .int v.toInt)]
  | var x => .obj [("type", .str "Identifier"), ("name", .str x)]
  | bin op l r =>
    .obj [("type", .str "BinaryExpr"), ("operator", .str op.symbol), ("left", l.json),
      ("right", r.json)]

def Cond.json (c : Cond) : Json :=
  .obj [("operator", .str c.rel.symbol), ("left", c.left.json), ("right", c.right.json)]

mutual

def Stmt.json : Stmt → Json
  | .declare x e =>
    .obj [("type", .str "VarDeclaration"), ("name", (Expr.var x).json), ("value", e.json)]
  | .assign x e =>
    .obj [("type", .str "Assignment"), ("name", (Expr.var x).json), ("value", e.json)]
  | .loop c b =>
    .obj [("type", .str "While"), ("condition", c.json), ("body", .arr (Program.jsonItems b))]
  | .branch c t none =>
    .obj [("type", .str "If"), ("condition", c.json), ("consequent", .arr (Program.jsonItems t)),
      ("alternate", .null)]
  | .branch c t (some f) =>
    .obj [("type", .str "If"), ("condition", c.json), ("consequent", .arr (Program.jsonItems t)),
      ("alternate", .arr (Program.jsonItems f))]

def Program.jsonItems : Program → List Json
  | [] => []
  | s :: p => s.json :: Program.jsonItems p

end

def Program.json (p : Program) : Json :=
  .obj [("type", .str "Program"), ("body", .arr (Program.jsonItems p))]

end Imp
