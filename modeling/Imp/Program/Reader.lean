import Imp.Json.Draft
import Imp.Program

/-!
Reading programs, expressions and conditions from JSON text.

An object's fields may come in any order, and fields that are not asked for are ignored. An array
may stand for an object: it holds all fields in their order, after the type of a statement or
expression.

Text that is no JSON is malformed, and JSON of another shape is mismatched. Of two faults the first
one counts. For this the outer parts are read field by field: a program or condition, and the type
of a statement or expression in them. The other fields of a statement or expression are taken whole,
so text that breaks off inside of them is malformed whatever they hold.
-/

namespace Imp

namespace Json

inductive Fault
  | malformed
  | mismatched
deriving DecidableEq, Repr, Inhabited

-- The fields of a node, by name or by place.
inductive Fields
  | named (fields : List (Option String × Draft))
  | listed (items : List Draft)
deriving Inhabited

namespace Fields

-- The values of the asked fields. None of them may come twice, and a list holds just these.
def get? (names : List String) : Fields → Option (List (Option Draft))
  | named kvs =>
    names.mapM fun k =>
      match kvs.filter (·.1 = some k) with
      | [] => some none
      | [(_, d)] => some (some d)
      | _ => none
  | listed ds => if ds.length = names.length then some (ds.map some) else none

end Fields

namespace Draft

-- What the name or number of a kind stands for.
def kind? {α : Type} (kinds : List (String × α)) : Draft → Option α
  | scalar (.str (some s)) => kinds.lookup s
  | scalar (.num (.int (.ofNat n))) => (kinds[n]?).map (·.2)
  | _ => none

-- The fields of a node without a type.
def untyped? : Draft → Option Fields
  | obj kvs => some (.named kvs)
  | arr ds => some (.listed ds)
  | _ => none

-- The type and the fields of a node with a type.
def typed? {α : Type} (kinds : List (String × α)) : Draft → Option (α × Fields)
  | obj kvs =>
    match kvs.filter (·.1 = some "type") with
    | [(_, t)] => (t.kind? kinds).map (·, .named kvs)
    | _ => none
  | arr (t :: ds) => (t.kind? kinds).map (·, .listed ds)
  | _ => none

-- A symbol, or an object with the symbol as its only key and nothing as its value.
def symbol? {α : Type} (ofSymbol? : String → Option α) : Draft → Option α
  | scalar (.str (some s)) => ofSymbol? s
  | obj [(some s, scalar .null)] | obj [(some s, obj [])] => ofSymbol? s
  | _ => none

def text? : Draft → Option String
  | scalar (.str s) => s
  | _ => none

def int32? : Draft → Option Int32
  | scalar (.num (.int n)) =>
    if -2147483648 ≤ n ∧ n ≤ 2147483647 then some (Int32.ofInt n) else none
  | _ => none

end Draft

open Draft (text? int32? symbol? typed? untyped? isSound isWhole)

/-! ### Parts that are taken whole -/

inductive ExprKind
  | bin | num | var
deriving DecidableEq, Repr, Inhabited

def exprKinds : List (String × ExprKind) :=
  [("BinaryExpr", .bin), ("NumberLiteral", .num), ("Identifier", .var)]

-- An expression of a kind, given how to read its operands.
def exprOf? (operand? : Draft → Option Expr) (fields : Fields) : ExprKind → Option Expr
  | .bin => do
    let [some op, some l, some r] ← fields.get? ["operator", "left", "right"] | none
    return .bin (← symbol? Operator.ofSymbol? op) (← operand? l) (← operand? r)
  | .num => do
    let [some v] ← fields.get? ["value"] | none
    return .num (← int32? v)
  | .var => do
    let [some x] ← fields.get? ["name"] | none
    return .var (← text? x)

-- An expression with at most so many brackets inside one another.
def expr? : Nat → Draft → Option Expr
  | 0, _ => none
  | n + 1, d => do
    let (kind, fields) ← d.typed? exprKinds
    exprOf? (expr? n) fields kind

def cond? (n : Nat) (d : Draft) : Option Cond := do
  let fields ← d.untyped?
  let [some r, some left, some right] ← fields.get? ["operator", "left", "right"] | none
  return ⟨← symbol? Relation.ofSymbol? r, ← expr? n left, ← expr? n right⟩

-- The name of an assigned variable.
def target? (d : Draft) : Option String := do
  let fields ← d.untyped?
  let [some x] ← fields.get? ["name"] | none
  text? x

inductive StmtKind
  | declare | assign | loop | branch
deriving DecidableEq, Repr, Inhabited

def stmtKinds : List (String × StmtKind) :=
  [("VarDeclaration", .declare), ("Assignment", .assign), ("While", .loop), ("If", .branch)]

def block? (stmt? : Draft → Option Stmt) : Draft → Option Program
  | .arr ds => ds.mapM stmt?
  | _ => none

-- A block that may be missing or null.
def alternate? (stmt? : Draft → Option Stmt) : Option Draft → Option (Option Program)
  | none | some (.scalar .null) => some none
  | some d => (block? stmt? d).map some

-- A statement of a kind with at most so many brackets inside, given how to read inner ones.
def stmtOf? (n : Nat) (stmt? : Draft → Option Stmt) (fields : Fields) : StmtKind → Option Stmt
  | .declare => do
    let [some x, some e] ← fields.get? ["name", "value"] | none
    return .declare (← target? x) (← expr? n e)
  | .assign => do
    let [some x, some e] ← fields.get? ["name", "value"] | none
    return .assign (← target? x) (← expr? n e)
  | .loop => do
    let [some c, some b] ← fields.get? ["condition", "body"] | none
    return .loop (← cond? n c) (← block? stmt? b)
  | .branch => do
    let [some c, some t, f] ← fields.get? ["condition", "consequent", "alternate"] | none
    return .branch (← cond? n c) (← block? stmt? t) (← alternate? stmt? f)

def stmt? : Nat → Draft → Option Stmt
  | 0, _ => none
  | n + 1, d => do
    let (kind, fields) ← d.typed? stmtKinds
    stmtOf? n (stmt? n) fields kind

/-! ### Parts that are read field by field -/

-- The greatest number of brackets inside one another.
def maxDepth : Nat := 127

def orMismatched {α : Type} : Option α → Except Fault α
  | some a => .ok a
  | none => .error .mismatched

-- The fault of a part that has another form than asked for. It is seen from its first lexeme.
def wrongForm : Draft → Fault
  | .scalar v => if v.isSound then .mismatched else .malformed
  | .arr _ | .obj _ => .mismatched
  | .broken => .malformed

def kind {α : Type} (kinds : List (String × α)) : Draft → Except Fault α
  | .scalar (.str (some s)) => orMismatched (kinds.lookup s)
  | d => .error (wrongForm d)

-- The type of a node among its fields, and the fault that comes first if there is one.
def kindAmong {α : Type} (kinds : List (String × α)) (n : Nat) (found : Option α) :
    List (Option String × Draft) → Except Fault α
  | [] => orMismatched found
  | (none, _) :: _ => .error .malformed
  | (some k, d) :: kvs =>
    if k = "type" then
      if found.isSome then .error .mismatched
      else do kindAmong kinds n (some (← kind kinds d)) kvs
    else if d.isSound n then kindAmong kinds n found kvs
    else .error .malformed

-- A node with a type and with at most so many brackets inside.
def typed {α β : Type} (kinds : List (String × α)) (n : Nat) (of? : Fields → α → Option β) :
    Draft → Except Fault β
  | .obj kvs => do
    let kind ← kindAmong kinds n none kvs
    orMismatched (of? (.named kvs) kind)
  | .arr [] => .error .mismatched
  | .arr (t :: ds) => do
    let kind ← kind kinds t
    if ds.all (isSound n) then orMismatched (of? (.listed ds) kind) else .error .malformed
  | d => .error (wrongForm d)

-- An expression inside of so many brackets.
def expr (outer : Nat) : Draft → Except Fault Expr :=
  let n := maxDepth - outer - 1
  typed exprKinds n (exprOf? (expr? n))

-- A statement inside of so many brackets.
def stmt (outer : Nat) : Draft → Except Fault Stmt :=
  let n := maxDepth - outer - 1
  typed stmtKinds n (stmtOf? n (stmt? n))

def relation : Draft → Except Fault Relation
  | .scalar (.str (some s)) => orMismatched (Relation.ofSymbol? s)
  | .obj ((some s, d) :: kvs) => do
    let r ← orMismatched (Relation.ofSymbol? s)
    match d, kvs with
    | .scalar .null, [] => .ok r
    | .scalar .null, _ :: _ => .error .malformed
    | d, _ => .error (wrongForm d)
  | _ => .error .malformed

-- The parts of a condition that have been read.
structure CondParts where
  rel : Option Relation := none
  left : Option Expr := none
  right : Option Expr := none
deriving Inhabited

def CondParts.cond (c : CondParts) : Except Fault Cond :=
  match c with
  | ⟨some r, some left, some right⟩ => .ok ⟨r, left, right⟩
  | _ => .error .mismatched

def CondParts.readNamed (c : CondParts) : List (Option String × Draft) → Except Fault Cond
  | [] => c.cond
  | (none, _) :: _ => .error .malformed
  | (some k, d) :: kvs =>
    if k = "operator" then
      if c.rel.isSome then .error .mismatched
      else do readNamed { c with rel := some (← relation d) } kvs
    else if k = "left" then
      if c.left.isSome then .error .mismatched
      else do readNamed { c with left := some (← expr 1 d) } kvs
    else if k = "right" then
      if c.right.isSome then .error .mismatched
      else do readNamed { c with right := some (← expr 1 d) } kvs
    else if d.isWhole then readNamed c kvs
    else .error .malformed

def CondParts.readListed (c : CondParts) : List Draft → Except Fault Cond
  | [] => c.cond
  | d :: ds =>
    match c with
    | ⟨none, _, _⟩ => do readListed { c with rel := some (← relation d) } ds
    | ⟨_, none, _⟩ => do readListed { c with left := some (← expr 1 d) } ds
    | ⟨_, _, none⟩ => do readListed { c with right := some (← expr 1 d) } ds
    | _ => .error .malformed

def cond : Draft → Except Fault Cond
  | .obj kvs => CondParts.readNamed {} kvs
  | .arr ds => CondParts.readListed {} ds
  | d => .error (wrongForm d)

def body : Draft → Except Fault Program
  | .arr ds => ds.mapM (stmt 2)
  | d => .error (wrongForm d)

-- The program among the fields of its node, given what has been read of it.
def programAmong (found : Option Program) : List (Option String × Draft) → Except Fault Program
  | [] => orMismatched found
  | (none, _) :: _ => .error .malformed
  | (some k, d) :: kvs =>
    if k = "body" then
      if found.isSome then .error .mismatched
      else do programAmong (some (← body d)) kvs
    else if d.isWhole then programAmong found kvs
    else .error .malformed

def program : Draft → Except Fault Program
  | .obj kvs => programAmong none kvs
  | .arr [] => .error .mismatched
  | .arr [d] => body d
  | .arr (d :: _ :: _) => do
    let _ ← body d
    .error .malformed
  | d => .error (wrongForm d)

-- Reads a text that holds one value and nothing behind it.
def decode {α : Type} (value : Draft → Except Fault α) (text : String) : Except Fault α := do
  let reading := read text
  let a ← value reading.draft
  if reading.trailing then .error .malformed else return a

end Json

def Program.ofJson (text : String) : Except Json.Fault Program :=
  Json.decode Json.program text

def Expr.ofJson (text : String) : Except Json.Fault Expr :=
  Json.decode (Json.expr 0) text

def Cond.ofJson (text : String) : Except Json.Fault Cond :=
  Json.decode Json.cond text

end Imp
