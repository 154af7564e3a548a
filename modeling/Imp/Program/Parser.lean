import Imp.Program
import Imp.Token

/-!
From tokens to programs.

    program   := statement*
    statement := 'var' name '=' sum ';' | name '=' sum ';'
               | 'while' '(' condition ')' block
               | 'if' '(' condition ')' block ('else' block)?
    block     := open-brace statement* close-brace
    condition := sum relation sum
    sum       := product (('+' | '-') product)*
    product   := atom ('*' atom)*
    atom      := number | name | '(' sum ')'

Conditionals belong to the full dialect only. The parser is a machine that takes one token at a time
and keeps what is still open: blocks, parentheses, and left operands that wait for their right ones.
`State.next?` is its step, `State.expected` says what it looked for when it has no step.
-/

namespace Imp

namespace Parser

open Token (Kind)

-- The words that a condition in parentheses follows.
inductive Guard
  | loop | branch
deriving DecidableEq, Repr, Inhabited

-- What a block belongs to, with the parts of its statement that precede it.
inductive Opening
  | loop (test : Cond)
  | consequent (test : Cond)
  | alternate (test : Cond) (consequent : Program)
deriving DecidableEq, Repr, Inhabited

-- A block that is still open. The statements before it in the enclosing block are latest first.
structure Frame where
  opening : Opening
  before : Program
deriving DecidableEq, Repr, Inhabited

-- The left operands that wait at one level of parentheses: one of `+` or `-`, and one of `*`.
structure Pending where
  sum : Option (Expr × Operator)
  product : Option Expr
deriving DecidableEq, Repr, Inhabited

-- The part that an expression plays in its statement.
inductive Role
  | declared (name : String)
  | assigned (name : String)
  | left (guard : Guard)
  | right (guard : Guard) (left : Expr) (rel : Relation)
deriving DecidableEq, Repr, Inhabited

-- Where an operand stands; the levels around it are innermost first.
structure Place where
  role : Role
  level : Pending
  outer : List Pending
deriving DecidableEq, Repr, Inhabited

inductive Mode
  | statement
  | declaredName
  | equals (role : Role)
  | openParen (guard : Guard)
  | operand (place : Place)
  | operator (place : Place) (read : Expr)
  | openBrace (opening : Opening)
  | elseWord (test : Cond) (consequent : Program)
deriving DecidableEq, Repr, Inhabited

-- The statements of the innermost open block are latest first.
structure State where
  frames : List Frame
  before : Program
  mode : Mode
deriving DecidableEq, Repr, Inhabited

def Guard.word : Guard → String
  | loop => "while"
  | branch => "if"

def Guard.opening : Guard → Cond → Opening
  | loop => .loop
  | branch => .consequent

def Opening.noun : Opening → String
  | loop _ => "loop"
  | consequent _ => "if"
  | alternate .. => "else"

namespace Pending

def empty : Pending := ⟨none, none⟩

-- The product that an operand completes.
def times (p : Pending) (e : Expr) : Expr :=
  match p.product with
  | some l => .bin .mul l e
  | none => e

-- The sum that a product completes.
def plus (p : Pending) (e : Expr) : Expr :=
  match p.sum with
  | some (l, op) => .bin op l e
  | none => e

end Pending

-- The first place of an expression.
def Role.place (r : Role) : Place := ⟨r, .empty, []⟩

-- The mode after an operand has been read.
def Place.after (p : Place) (e : Expr) : Mode :=
  .operator { p with level := { p.level with product := none } } (p.level.times e)

namespace State

def start : State := ⟨[], [], .statement⟩

-- Adds a finished statement to the innermost block.
def add (s : State) (stmt : Stmt) : State :=
  { s with before := stmt :: s.before, mode := .statement }

-- Closes the innermost block.
def close? (s : State) : Option State :=
  match s.frames with
  | [] => none
  | ⟨.loop c, before⟩ :: fs => some ⟨fs, .loop c s.before.reverse :: before, .statement⟩
  | ⟨.consequent c, before⟩ :: fs => some ⟨fs, before, .elseWord c s.before.reverse⟩
  | ⟨.alternate c t, before⟩ :: fs =>
    some ⟨fs, .branch c t (some s.before.reverse) :: before, .statement⟩

def atStatement? (d : Dialect) (s : State) : Kind → Option State
  | .varWord => some { s with mode := .declaredName }
  | .ident x => some { s with mode := .equals (.assigned x) }
  | .whileWord => some { s with mode := .openParen .loop }
  | .ifWord => if d.hasConditionals then some { s with mode := .openParen .branch } else none
  | .closeBrace => s.close?
  | _ => none

def atOperand? (p : Place) : Kind → Option Mode
  | .number v => some (p.after (.num v))
  | .ident x => some (p.after (.var x))
  | .openParen => some (.operand { p with level := .empty, outer := p.level :: p.outer })
  | _ => none

-- What follows a whole expression outside of parentheses.
def atEnd? (s : State) (e : Expr) : Role → Kind → Option State
  | .declared x, .semicolon => some (s.add (.declare x e))
  | .assigned x, .semicolon => some (s.add (.assign x e))
  | .left g, .relation r => some { s with mode := .operand (Role.right g e r).place }
  | .right g l r, .closeParen => some { s with mode := .openBrace (g.opening ⟨r, l, e⟩) }
  | _, _ => none

def atOperator? (s : State) (p : Place) (e : Expr) : Kind → Option State
  | .operator .mul =>
    some { s with mode := .operand { p with level := { p.level with product := some e } } }
  | .operator op =>
    some { s with mode := .operand { p with level := ⟨some (p.level.plus e, op), none⟩ } }
  | k =>
    match p.outer, k with
    | [], k => s.atEnd? (p.level.plus e) p.role k
    | level :: outer, .closeParen =>
      some { s with mode := Place.after ⟨p.role, level, outer⟩ (p.level.plus e) }
    | _ :: _, _ => none

-- A consequent that is not followed by `else` ends its statement.
def settled (s : State) : State :=
  match s.mode with
  | .elseWord c t => s.add (.branch c t none)
  | _ => s

-- The state after a token, if the token can stand here.
def next? (d : Dialect) (s : State) (k : Kind) : Option State :=
  match s.mode, k with
  | .statement, k => s.atStatement? d k
  | .declaredName, .ident x => some { s with mode := .equals (.declared x) }
  | .equals r, .assign => some { s with mode := .operand r.place }
  | .openParen g, .openParen => some { s with mode := .operand (Role.left g).place }
  | .operand p, k => (atOperand? p k).map fun m => { s with mode := m }
  | .operator p e, k => s.atOperator? p e k
  | .openBrace o, .openBrace => some ⟨⟨o, s.before⟩ :: s.frames, [], .statement⟩
  | .elseWord c t, .elseWord => some { s with mode := .openBrace (.alternate c t) }
  | .elseWord _ _, k => s.settled.atStatement? d k
  | _, _ => none

-- The program read so far, if the input may end here.
def program? (s : State) : Option Program :=
  match s.settled with
  | ⟨[], before, .statement⟩ => some before.reverse
  | _ => none

end State

-- What the parser looked for in place of a token.
inductive Expected
  | statement
  | statementOrEnd
  | identifier
  | equals (role : Role)
  | openParen (guard : Guard)
  | operand
  | closeParen
  | relation
  | semicolon (role : Role)
  | conditionEnd
  | openBrace (opening : Opening)
  | closeBrace (opening : Opening)
deriving DecidableEq, Repr, Inhabited

def Role.noun : Role → String
  | declared _ => "variable declaration"
  | assigned _ => "assignment"
  | left _ | right .. => "condition"

def Expected.text : Expected → String
  | statement => "statement"
  | statementOrEnd => "statement or end of input"
  | identifier => "identifier"
  | equals r => "'=' in " ++ r.noun
  | openParen g => "'(' after '" ++ g.word ++ "'"
  | operand => "number, identifier or '('"
  | closeParen => "')' after expression"
  | relation => "relational operator"
  | semicolon r => "';' after " ++ r.noun
  | conditionEnd => "')' after condition"
  | openBrace o => "'\x7b' to open " ++ o.noun ++ " block"
  | closeBrace o => "'\x7d' to close " ++ o.noun ++ " block"

-- What is expected behind a whole expression.
def Role.follower : Role → Expected
  | .left _ => .relation
  | .right .. => .conditionEnd
  | r => .semicolon r

-- What is expected in place of a token that cannot stand here.
def State.expected (s : State) (k : Kind) : Expected :=
  match s.mode with
  | .statement | .elseWord .. =>
    match s.frames, k with
    | [], .closeBrace => .statementOrEnd
    | f :: _, .eof => .closeBrace f.opening
    | _, _ => .statement
  | .declaredName => .identifier
  | .equals r => .equals r
  | .openParen g => .openParen g
  | .operand _ => .operand
  | .operator ⟨r, _, []⟩ _ => r.follower
  | .operator ⟨_, _, _ :: _⟩ _ => .closeParen
  | .openBrace o => .openBrace o

end Parser

structure ParseError where
  position : Nat
  expected : Parser.Expected
  found : Token.Kind
deriving DecidableEq, Repr, Inhabited

def ParseError.message (e : ParseError) : String :=
  "parse error at byte " ++ toString e.position ++ ": expected " ++ e.expected.text ++ ", found "
    ++ e.found.display

namespace Parser.State

-- The error of a token that cannot stand here.
def refusal (s : State) (t : Token) : ParseError :=
  ⟨t.position, s.expected t.kind, t.kind⟩

-- Reads tokens up to the first that cannot stand in its place.
def feed (d : Dialect) (s : State) : List Token → Except ParseError State
  | [] => .ok s
  | t :: ts =>
    match s.next? d t.kind with
    | some s' => s'.feed d ts
    | none => .error (s.refusal t)

-- Ends the input at a token.
def finish (s : State) (t : Token) : Except ParseError Program :=
  match s.program? with
  | some p => .ok p
  | none => .error (s.refusal t)

end Parser.State

open Imp.Parser (State)

-- The program of a token list. The first end of input ends it, whatever follows. Where there is
-- none, the last token stands again and again behind the list, until it is refused: no program has
-- an end then, and only an open parenthesis can be repeated more often than the list is long.
def Dialect.parseTokens (d : Dialect) (ts : List Token) : Except ParseError Program :=
  match ts.find? (·.kind = .eof), ts.getLast? with
  | some t, _ => do (← State.start.feed d (ts.takeWhile (·.kind ≠ .eof))).finish t
  | none, none => State.start.finish ⟨.eof, 0⟩
  | none, some t => do
    let s ← State.start.feed d (ts ++ List.replicate (ts.length + 1) t)
    .error (s.refusal t)

end Imp
