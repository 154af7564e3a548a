import Imp.Operator

/-!
How a Python text is read.

Of the language there is what programs on integers need: names, decimal literals, `+`, `-` and `*`
with parentheses, comparisons of two such expressions, assignments to a name, `pass`, `while`, and
`if` with or without `else`. A text that goes beyond that has no reading.

A text is cut into lines, a line into tokens. The blanks in front of the lines give the marks that
open and close blocks, and the marks give the statements.
-/

namespace Imp

namespace Python

def keywords : List String :=
  ["False", "None", "True", "and", "as", "assert", "async", "await", "break", "class", "continue",
    "def", "del", "elif", "else", "except", "finally", "for", "from", "global", "if", "import",
    "in", "is", "lambda", "nonlocal", "not", "or", "pass", "raise", "return", "try", "while",
    "with", "yield"]

inductive Token
  | keyword (word : String)
  | name (x : String)
  | number (n : Nat)
  | operator (op : Operator)
  | relation (r : Relation)
  | assign | openParen | closeParen | colon
deriving DecidableEq, Repr, Inhabited

def isBlank (c : Char) : Bool :=
  c = ' ' || c = '\t'

def isNameStart (c : Char) : Bool :=
  c.isAlpha || c = '_'

def isNameChar (c : Char) : Bool :=
  isNameStart c || c.isDigit

-- Characters that would go on with a literal.
def isLiteralChar (c : Char) : Bool :=
  isNameChar c || c = '.'

-- All operators and delimiters, each behind those that start with it. Some have no token here.
def symbols : List (String × Option Token) :=
  [("**=", none), ("//=", none), ("<<=", none), (">>=", none), ("...", none),
    ("==", some (.relation .eq)), ("!=", some (.relation .ne)), ("<=", some (.relation .le)),
    (">=", some (.relation .ge)), ("<>", none), ("**", none), ("//", none), ("<<", none),
    (">>", none), ("+=", none), ("-=", none), ("*=", none), ("/=", none), ("%=", none),
    ("@=", none), ("&=", none), ("|=", none), ("^=", none), ("->", none), (":=", none),
    ("+", some (.operator .add)), ("-", some (.operator .sub)), ("*", some (.operator .mul)),
    ("<", some (.relation .lt)), (">", some (.relation .gt)), ("=", some .assign),
    ("(", some .openParen), (")", some .closeParen), (":", some .colon)]

def word (cs : List Char) : Token :=
  let w := String.ofList cs
  if w ∈ keywords then .keyword w else .name w

-- A decimal literal does not start with a zero, unless it is zero.
def literal? (cs : List Char) : Option Token :=
  if cs.all Char.isDigit ∧ (cs.head? = some '0' → cs.all (· = '0')) then
    some (.number (Nat.ofDigitChars 10 cs 0))
  else none

-- The tokens of a line; each is as long as it can be.
def tokens? : List Char → Option (List Token)
  | [] => some []
  | c :: cs =>
    if isBlank c then tokens? cs
    else if isNameStart c then do
      return word (c :: cs.takeWhile isNameChar) :: (← tokens? (cs.dropWhile isNameChar))
    else if c.isDigit then do
      let t ← literal? (c :: cs.takeWhile isLiteralChar)
      return t :: (← tokens? (cs.dropWhile isLiteralChar))
    else
      match symbols.find? fun s => s.1.toList.isPrefixOf (c :: cs) with
      | some (s, some t) => do return t :: (← tokens? (cs.drop (s.length - 1)))
      | _ => none
termination_by cs => cs.length
decreasing_by
  · exact Nat.lt_add_one _
  · exact Nat.lt_succ_of_le (List.dropWhile_sublist _).length_le
  · exact Nat.lt_succ_of_le (List.dropWhile_sublist _).length_le
  · exact Nat.lt_succ_of_le (List.drop_sublist _ _).length_le

inductive Expr
  | num (n : Nat)
  | name (x : String)
  | bin (op : Operator) (left right : Expr)
deriving DecidableEq, Repr, Inhabited

-- The levels of the operators: a higher one binds tighter.
def level : Operator → Nat
  | .add | .sub => 1
  | .mul => 2

-- What waits to the left of an operand.
inductive Waiting
  | left (e : Expr) (op : Operator)
  | paren
deriving DecidableEq, Repr, Inhabited

-- Gives an operand to the operators that wait for it, as far as their level is not below `n`. As
-- the operators of one level group from left to right, an operator leaves the others of its level
-- no operand to wait for.
def collapse (n : Nat) : List Waiting → Expr → List Waiting × Expr
  | .left l op :: ws, e =>
    if n ≤ level op then collapse n ws (.bin op l e) else (.left l op :: ws, e)
  | ws, e => (ws, e)

-- An expression that is being read: an operand or an operator has to follow.
inductive Reading
  | operand (waiting : List Waiting)
  | operator (waiting : List Waiting) (read : Expr)
deriving DecidableEq, Repr, Inhabited

namespace Reading

def next? : Reading → Token → Option Reading
  | operand ws, .number n => some (.operator ws (.num n))
  | operand ws, .name x => some (.operator ws (.name x))
  | operand ws, .openParen => some (.operand (.paren :: ws))
  | operator ws e, .operator op =>
    let (ws, l) := collapse (level op) ws e
    some (.operand (.left l op :: ws))
  | operator ws e, .closeParen =>
    match collapse 0 ws e with
    | (.paren :: ws, e) => some (.operator ws e)
    | _ => none
  | _, _ => none

def expr? : Reading → Option Expr
  | operand _ => none
  | operator ws e =>
    match collapse 0 ws e with
    | ([], e) => some e
    | _ => none

end Reading

def expr? (ts : List Token) : Option Expr := do
  (← ts.foldlM Reading.next? (.operand [])).expr?

structure Test where
  rel : Relation
  left : Expr
  right : Expr
deriving DecidableEq, Repr, Inhabited

def Token.isRelation : Token → Bool
  | relation _ => true
  | _ => false

-- A comparison binds looser than all operators.
def test? (ts : List Token) : Option Test :=
  match ts.dropWhile (!·.isRelation) with
  | .relation r :: rs => do
    return ⟨r, ← expr? (ts.takeWhile (!·.isRelation)), ← expr? rs⟩
  | _ => none

-- What a line says.
inductive Clause
  | pass
  | assign (x : String) (value : Expr)
  | loop (test : Test)
  | branch (test : Test)
  | otherwise
deriving DecidableEq, Repr, Inhabited

-- The test of a header that goes on in the lines below it.
def header? (ts : List Token) : Option Test :=
  if ts.getLast? = some .colon then test? ts.dropLast else none

def clause? : List Token → Option Clause
  | [.keyword "pass"] => some .pass
  | [.keyword "else", .colon] => some .otherwise
  | .keyword "while" :: ts => (header? ts).map .loop
  | .keyword "if" :: ts => (header? ts).map .branch
  | .name x :: .assign :: ts => (expr? ts).map (.assign x)
  | _ => none

structure Row where
  column : Nat
  clause : Clause
deriving DecidableEq, Repr, Inhabited

-- The column behind some blanks. A tab goes on to the next multiple of eight.
def column (blanks : List Char) : Nat :=
  blanks.foldl (fun n c => if c = '\t' then (n / 8 + 1) * 8 else n + 1) 0

def row? (cs : List Char) : Option Row := do
  let ts ← tokens? (cs.dropWhile isBlank)
  return ⟨column (cs.takeWhile isBlank), ← clause? ts⟩

-- Lines of blanks are passed over.
def rows? (text : List Char) : Option (List Row) :=
  ((text.splitOn '\n').filter (!·.all isBlank)).mapM row?

inductive Mark
  | indent | dedent
  | clause (c : Clause)
deriving DecidableEq, Repr, Inhabited

-- The marks in front of a line, and the columns of the blocks around it, innermost first. A line
-- further to the right opens a block; any other has to stand where an open block does.
def shift? (columns : List Nat) (column : Nat) : Option (List Mark × List Nat) :=
  if ∀ top ∈ columns.head?, top < column then some ([.indent], column :: columns)
  else
    let outer := columns.dropWhile (column < ·)
    if outer.head? = some column then
      some (List.replicate (columns.length - outer.length) .dedent, outer)
    else none

-- The end of the text closes what is open. The outermost column is that of the text itself.
def marks? (columns : List Nat) : List Row → Option (List Mark)
  | [] => some (List.replicate (columns.length - 1) .dedent)
  | r :: rs => do
    let (ms, columns) ← shift? columns r.column
    return ms ++ .clause r.clause :: (← marks? columns rs)

inductive Stmt
  | pass
  | assign (x : String) (value : Expr)
  | loop (test : Test) (body : List Stmt)
  | branch (test : Test) (body : List Stmt) (otherwise : Option (List Stmt))
deriving Repr, Inhabited

-- What a block belongs to.
inductive Opening
  | loop (test : Test)
  | branch (test : Test)
  | otherwise (test : Test) (body : List Stmt)
deriving Repr, Inhabited

def Opening.close (body : List Stmt) : Opening → Stmt
  | loop test => .loop test body
  | branch test => .branch test body none
  | otherwise test t => .branch test t (some body)

-- Open blocks, innermost first, each with the statements before it, latest first.
structure Blocks where
  outer : List (Opening × List Stmt)
  before : List Stmt
  -- a header whose block has to follow
  header : Option Opening
deriving Repr, Inhabited

namespace Blocks

def start : Blocks := ⟨[], [], none⟩

def next? : Blocks → Mark → Option Blocks
  | ⟨outer, before, none⟩, .clause .pass => some ⟨outer, .pass :: before, none⟩
  | ⟨outer, before, none⟩, .clause (.assign x e) => some ⟨outer, .assign x e :: before, none⟩
  | ⟨outer, before, none⟩, .clause (.loop test) => some ⟨outer, before, some (.loop test)⟩
  | ⟨outer, before, none⟩, .clause (.branch test) => some ⟨outer, before, some (.branch test)⟩
  | ⟨outer, .branch test t none :: before, none⟩, .clause .otherwise =>
    some ⟨outer, before, some (.otherwise test t)⟩
  | ⟨outer, before, some o⟩, .indent => some ⟨(o, before) :: outer, [], none⟩
  | ⟨(o, before) :: outer, body, none⟩, .dedent =>
    some ⟨outer, o.close body.reverse :: before, none⟩
  | _, _ => none

def module? : Blocks → Option (List Stmt)
  | ⟨[], before, none⟩ => some before.reverse
  | _ => none

end Blocks

-- The statements of a text.
def read? (text : String) : Option (List Stmt) := do
  let ms ← marks? [0] (← rows? text.toList)
  (← ms.foldlM Blocks.next? .start).module?

end Python

end Imp
