import Imp.Program.Parser

/-!
The parser as procedures that call each other, one for each rule of the grammar.

A procedure starts at a place in the tokens and comes back at another. It is told how deep calls may
go, and has no result if they go deeper; procedures that call each other for ever have none at any
depth. A pass begins whenever a procedure goes round in a loop, and whenever procedures call each
other in a circle; the cursor keeps the places at which passes have begun. There are four kinds of
them: a statement among others, a sum in parentheses, a further factor, and a further product.
-/

namespace Imp

namespace Parser

open Token (Kind)

-- The token at a place. Behind the last token, it stands again and again.
def current (ts : List Token) (i : Nat) : Token :=
  (ts[i]?.or ts.getLast?).getD ⟨.eof, 0⟩

-- The place behind another one.
def next (ts : List Token) (i : Nat) : Nat :=
  if i < ts.length then i + 1 else i

-- A place in the tokens, and the places at which passes have begun, latest first.
structure Cursor where
  position : Nat
  passes : List Nat
deriving DecidableEq, Repr, Inhabited

namespace Cursor

def forward (ts : List Token) (c : Cursor) : Cursor :=
  { c with position := next ts c.position }

-- A pass begins here.
def mark (c : Cursor) : Cursor :=
  { c with passes := c.position :: c.passes }

end Cursor

abbrev Descent := ExceptT ParseError (StateT Cursor Option)

namespace Descent

variable (d : Dialect) (ts : List Token)

-- Calls have gone too deep.
def tooDeep {α : Type} : Descent α :=
  fun _ => none

def peek : Descent Kind := do
  return (current ts (← get).position).kind

def advance : Descent Unit :=
  modify (Cursor.forward ts)

def pass : Descent Unit :=
  modify Cursor.mark

def refuse {α : Type} (e : Expected) : Descent α := do
  let t := current ts (← get).position
  throw ⟨t.position, e, t.kind⟩

def eat (k : Kind) : Descent Bool := do
  if (← peek ts) = k then
    advance ts
    return true
  else
    return false

def expect (k : Kind) (e : Expected) : Descent Unit := do
  unless ← eat ts k do refuse ts e

-- Reads a token for what it carries.
def take {α : Type} (pick? : Kind → Option α) (e : Expected) : Descent α := do
  match pick? (← peek ts) with
  | some a =>
    advance ts
    return a
  | none => refuse ts e

def ident? : Kind → Option String
  | .ident x => some x
  | _ => none

def relation? : Kind → Option Relation
  | .relation rel => some rel
  | _ => none

def name : Descent String :=
  take ts ident? .identifier

def relation : Descent Relation :=
  take ts relation? .relation

-- The operators that make up a sum.
def additive? : Kind → Option Operator
  | .operator .add => some .add
  | .operator .sub => some .sub
  | _ => none

-- The operands of a single token.
def operand? : Kind → Option Expr
  | .number v => some (.num v)
  | .ident x => some (.var x)
  | _ => none

mutual

def factor : Nat → Descent Expr
  | 0 => tooDeep
  | n + 1 => do
    let k ← peek ts
    match operand? k with
    | some e =>
      advance ts
      return e
    | none =>
      if k = .openParen then
        pass
        parenthesized n
      else
        refuse ts .operand

def parenthesized : Nat → Descent Expr
  | 0 => tooDeep
  | n + 1 => do
    advance ts
    let e ← sum n
    expect ts .closeParen .closeParen
    return e

def product : Nat → Descent Expr
  | 0 => tooDeep
  | n + 1 => do
    products n (← factor n)

-- What follows the first factor of a product.
def products : Nat → Expr → Descent Expr
  | 0, _ => tooDeep
  | n + 1, l => do
    match ← peek ts with
    | .operator .mul =>
      pass
      products n (.bin .mul l (← nextFactor n))
    | _ => return l

def nextFactor : Nat → Descent Expr
  | 0 => tooDeep
  | n + 1 => do
    advance ts
    factor n

def sum : Nat → Descent Expr
  | 0 => tooDeep
  | n + 1 => do
    sums n (← product n)

-- What follows the first product of a sum.
def sums : Nat → Expr → Descent Expr
  | 0, _ => tooDeep
  | n + 1, l => do
    match additive? (← peek ts) with
    | some op =>
      pass
      sums n (.bin op l (← nextProduct n))
    | none => return l

def nextProduct : Nat → Descent Expr
  | 0 => tooDeep
  | n + 1 => do
    advance ts
    product n

end

-- What a declaration or an assignment gives to its name.
def value (r : Role) (n : Nat) : Descent Expr := do
  expect ts .assign (.equals r)
  let e ← sum ts n
  expect ts .semicolon (.semicolon r)
  return e

def declaration (n : Nat) : Descent Stmt := do
  let x ← name ts
  return .declare x (← value ts (.declared x) n)

def assignment (n : Nat) : Descent Stmt := do
  let x ← name ts
  return .assign x (← value ts (.assigned x) n)

-- What stands in parentheses behind the first word of a loop or a conditional.
def condition (g : Guard) (n : Nat) : Descent Cond := do
  expect ts .openParen (.openParen g)
  let l ← sum ts n
  let rel ← relation ts
  let r ← sum ts n
  expect ts .closeParen .conditionEnd
  return ⟨rel, l, r⟩

mutual

def block : Nat → Opening → Descent Program
  | 0, _ => tooDeep
  | n + 1, o => do
    expect ts .openBrace (.openBrace o)
    let p ← statements n
    expect ts .closeBrace (.closeBrace o)
    return p

def loop : Nat → Descent Stmt
  | 0 => tooDeep
  | n + 1 => do
    let test ← condition ts .loop n
    return .loop test (← block n (.loop test))

def branch : Nat → Descent Stmt
  | 0 => tooDeep
  | n + 1 => do
    let test ← condition ts .branch n
    let t ← block n (.consequent test)
    if ← eat ts .elseWord then
      return .branch test t (some (← block n (.alternate test t)))
    else
      return .branch test t none

def statement : Nat → Descent Stmt
  | 0 => tooDeep
  | n + 1 => do
    match ← peek ts with
    | .varWord =>
      advance ts
      declaration ts n
    | .ident _ => assignment ts n
    | .whileWord =>
      advance ts
      loop n
    | .ifWord =>
      if d.hasConditionals then
        advance ts
        branch n
      else
        refuse ts .statement
    | _ => refuse ts .statement

def statements : Nat → Descent Program
  | 0 => tooDeep
  | n + 1 => do
    match ← peek ts with
    | .eof | .closeBrace => return []
    | _ =>
      pass
      let s ← statement n
      return s :: (← statements n)

end

def program (n : Nat) : Descent Program := do
  let p ← statements d ts n
  if (← peek ts) = .eof then
    return p
  else
    refuse ts .statementOrEnd

end Descent

end Parser

end Imp
